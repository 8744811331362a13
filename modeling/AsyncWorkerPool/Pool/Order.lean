import AsyncWorkerPool.Pool.Frames

/-!
# Order — the callbacks of a shard

`Phase` is the discipline of the callbacks: one `process` at a time, for positions 0, 1, 2, …, and
`on_error` once after each that failed.  `Ledger` ties the callbacks made so far to the worker's
location, to `dequeue_pos` and to the frames that shutdown has abandoned: what has been taken from
a ring is in the callbacks, in `drained`, or in the hands of the one consumer.
-/

open Foundation

namespace Awp

/-! ## The discipline -/

/-- Where the callbacks of a shard stand. -/
inductive Phase where
  | between (k : Nat)
  | processing (p : Nat)
  | failed (p : Nat) (rc : Int)
  | handling (p : Nat)
  deriving DecidableEq

/-- The next callback boundary; `onErr` tells whether there is an `on_error`. -/
def Phase.next (onErr : Bool) : Phase → Event → Option Phase
  | .between k, .started p => if p = k then some (.processing p) else none
  | .processing p, .returned q rc =>
    if q = p then some (if rc ≠ 0 ∧ onErr = true then .failed p rc else .between (p + 1)) else none
  | .failed p rc, .errStarted q rc' => if q = p ∧ rc' = rc then some (.handling p) else none
  | .handling p, .errReturned q => if q = p then some (.between (p + 1)) else none
  | _, _ => none

/-- The calls of `process` made. -/
def Phase.calls : Phase → Nat
  | .between k => k
  | .processing p | .failed p _ | .handling p => p + 1

/-- The callbacks follow the discipline, and stand at `ph`. -/
def Serial (onErr : Bool) (events : List Event) (ph : Phase) : Prop :=
  events.foldlM (Phase.next onErr) (.between 0) = some ph

theorem Serial.snoc {onErr : Bool} {events : List Event} {e : Event} {ph ph' : Phase}
    (h : Serial onErr events ph) (he : ph.next onErr e = some ph') :
    Serial onErr (events ++ [e]) ph' := by
  rw [Serial] at h
  simp [Serial, List.foldlM_append, h, he]

/-- The positions for which `process` has been called, in order. -/
def started (events : List Event) : List Nat :=
  events.filterMap fun
    | .started p => some p
    | _ => none

/-- Under the discipline the calls of `process` are for the positions 0, 1, 2, …. -/
theorem Serial.started_eq {onErr : Bool} {events : List Event} {ph : Phase}
    (h : Serial onErr events ph) : started events = List.range ph.calls := by
  induction events using List.reverseRecOn generalizing ph with
  | nil =>
    cases h
    rfl
  | append_singleton events e ih =>
    simp only [Serial, List.foldlM_append, List.foldlM_cons, List.foldlM_nil, bind_pure] at h
    obtain ⟨ph₀, h₀, he⟩ := Option.bind_eq_some_iff.mp h
    have hih := ih h₀
    simp only [started, List.filterMap_append] at hih ⊢
    rw [hih]
    cases ph₀ <;> cases e <;> simp only [Phase.next, reduceCtorEq] at he <;> split at he <;>
      simp only [Option.some.injEq, reduceCtorEq] at he <;> subst he
    · rename_i hp
      subst hp
      simp [Phase.calls, List.range_succ]
    · split <;> simp [Phase.calls]
    · simp [Phase.calls]
    · simp [Phase.calls]

/-! ## What is in hand -/

/-- The position that a pop under way has taken, or has returned with. -/
def Loc.carried : Loc Nat Nat → Option Nat
  | .popData _ p | .popClear _ p _ | .popStore _ p _ | .wake _ (.popped p _)
  | .ret (.popped p _) => some p
  | _ => none

def WorkerPc.inHand (l : Loc Nat Nat) : WorkerPc → Option Nat
  | .pop => l.carried
  | .taken p _ | .call p _ => some p
  | _ => none

def ShutPc.inHand (i : Nat) (l : Loc Nat Nat) : ShutPc → Option Nat
  | .drainPop _ j => if j = i then l.carried else none
  | .drainCount _ j p => if j = i then some p else none
  | _ => none

/-- The position that a party has taken from ring `i`, without a callback or a count for it yet. -/
def Thread.inHand (a : Agent) (i : Nat) (t : Thread) : Option Nat :=
  match t.pc, a with
  | .worker p, .worker j _ => if j = i then p.inHand t.loc else none
  | .shut p, _ | .destroy (.shut p), _ => p.inHand i t.loc
  | _, _ => none

def Pool.inHand (s : Pool) (a : Agent) (i : Nat) : Option Nat := (s.thr a).inHand a i

/-- The positions of ring `i` that shutdown has abandoned, in order. -/
def Ctl.drainedAt (m : Ctl) (i : Nat) : List Nat := (m.drained.filter (·.1 = i)).map Prod.snd

/-- How the callbacks stand when the current thread is at a location; `n` is `processed`. -/
def WorkerPc.Keeps (onErr : Bool) (n : Nat) (ph : Phase) : WorkerPc → Prop
  | .process p _ _ => p = n ∧ ph = .processing p
  | .countError p _ rc | .countPoolError p _ rc =>
    p = n ∧ rc ≠ 0 ∧ ph = if onErr = true then .failed p rc else .between (p + 1)
  | .callError p _ rc => p = n ∧ ph = .failed p rc
  | .onError p _ _ _ => p = n ∧ ph = .handling p
  | .count => ph = .between (n + 1)
  | _ => ph = .between n

/-- The books of shard `i`, the callbacks standing at `ph`. -/
structure Ledger (c : Config) (s : Pool) (i : Nat) (ph : Phase) : Prop where
  serial : Serial c.onError (s.ctl.w i).events ph
  keeps : ∀ p, (s.thr (.worker i (s.ctl.w i).cur)).pc = .worker p →
    p.Keeps c.onError (s.ctl.w i).processed ph
  hand : ∀ a p, s.inHand a i = some p →
    (s.ring i).dequeuePos = p + 1 ∧ p = ph.calls + (s.ctl.drainedAt i).length
  free : (∀ a, s.inHand a i = none) →
    (s.ring i).dequeuePos = ph.calls + (s.ctl.drainedAt i).length
  drained : s.ctl.drainedAt i = List.range' ph.calls (s.ctl.drainedAt i).length
  stopped : s.ctl.drainedAt i ≠ [] → (Fact.ended i).Holds c s.ctl s.crew

theorem Ledger.init {c : Config} (now i : Nat) : Ledger c (Pool.init c now) i (.between 0) where
  serial := rfl
  keeps p hp := by
    cases hp
    rfl
  hand a p h := by cases a <;> simp [Pool.inHand, Pool.init, Thread.inHand, WorkerPc.inHand] at h
  free _ := rfl
  drained := rfl
  stopped h := absurd rfl h

/-! ## One step of the worker -/

section Worker

variable {c : Config} {m m' : Ctl} {i : Nat} {l : Loc Nat Nat} {x : Choice} {k : Cmd}
  {p p' : WorkerPc} {ph : Phase}

/-- The worker's own step keeps the discipline; the call of `process` is the one for the frame in
hand. -/
theorem WorkerPc.next_books (hn : p.next c m i l x = some (m', p', k))
    (hs : Serial c.onError (m.w i).events ph) (hk : p.Keeps c.onError (m.w i).processed ph)
    (hcall : ∀ q slot, p = .call q slot → q = (m.w i).processed) :
    ∃ ph', Serial c.onError (m'.w i).events ph' ∧ p'.Keeps c.onError (m'.w i).processed ph' ∧
      ((∀ q slot, p ≠ .call q slot) → ph'.calls = ph.calls) ∧
      (∀ q slot, p = .call q slot → ph'.calls = ph.calls + 1 ∧ p' = .process q slot .out) := by
  have hsilent : ∀ f : Worker → Worker, (f (m.w i)).events = (m.w i).events →
      (f (m.w i)).processed = (m.w i).processed → m' = m.setW i f →
      p'.Keeps c.onError (m.w i).processed ph → (∀ q slot, p ≠ .call q slot) →
      ∃ ph', Serial c.onError (m'.w i).events ph' ∧ p'.Keeps c.onError (m'.w i).processed ph' ∧
        ((∀ q slot, p ≠ .call q slot) → ph'.calls = ph.calls) ∧
        (∀ q slot, p = .call q slot → ph'.calls = ph.calls + 1 ∧ p' = .process q slot .out) := by
    rintro f he hp rfl hkeep hne
    rw [Ctl.setW_self]
    exact ⟨ph, he ▸ hs, hp ▸ hkeep, fun _ ↦ rfl, fun q slot h ↦ absurd h (hne q slot)⟩
  have hsame : m'.w = m.w → p'.Keeps c.onError (m.w i).processed ph →
      (∀ q slot, p ≠ .call q slot) →
      ∃ ph', Serial c.onError (m'.w i).events ph' ∧ p'.Keeps c.onError (m'.w i).processed ph' ∧
        ((∀ q slot, p ≠ .call q slot) → ph'.calls = ph.calls) ∧
        (∀ q slot, p = .call q slot → ph'.calls = ph.calls + 1 ∧ p' = .process q slot .out) := by
    intro hw hkeep hne
    rw [hw]
    exact ⟨ph, hs, hkeep, fun _ ↦ rfl, fun q slot h ↦ absurd h (hne q slot)⟩
  have hlog : ∀ e ph', m' = m.log i e → ph.next c.onError e = some ph' → ph'.calls = ph.calls →
      p'.Keeps c.onError (m.w i).processed ph' → (∀ q slot, p ≠ .call q slot) →
      ∃ ph', Serial c.onError (m'.w i).events ph' ∧ p'.Keeps c.onError (m'.w i).processed ph' ∧
        ((∀ q slot, p ≠ .call q slot) → ph'.calls = ph.calls) ∧
        (∀ q slot, p = .call q slot → ph'.calls = ph.calls + 1 ∧ p' = .process q slot .out) := by
    rintro e ph' rfl he hcalls hkeep hne
    rw [Ctl.log, Ctl.setW_self]
    exact ⟨ph', hs.snoc he, hkeep, fun _ ↦ hcalls, fun q slot h ↦ absurd h (hne q slot)⟩
  cases p with
  | returned => cases hn
  | entry | stamp | taken q slot | progress | exit =>
    obtain ⟨rfl, rfl, rfl⟩ := outcome_inj hn
    exact hsilent _ rfl rfl rfl hk (by simp)
  | loop =>
    obtain ⟨rfl, rfl, rfl⟩ := outcome_inj hn
    refine hsame rfl ?_ (by simp)
    split <;> exact hk
  | depth =>
    have hcases : m' = m ∧ (p' = .depth ∨ p' = .exit ∨ p' = .pop) := by
      cases l <;> simp only [WorkerPc.next] at hn <;> grind
    obtain ⟨rfl, rfl | rfl | rfl⟩ := hcases <;> exact hsame rfl hk (by simp)
  | pop =>
    have hcases : m' = m ∧ (p' = .pop ∨ p' = .exit ∨ p' = .loop ∨ ∃ q slot, p' = .taken q slot) := by
      cases l <;> simp only [WorkerPc.next] at hn <;> grind
    obtain ⟨rfl, rfl | rfl | rfl | ⟨q, slot, rfl⟩⟩ := hcases <;> exact hsame rfl hk (by simp)
  | call q slot =>
    obtain ⟨rfl, rfl, rfl⟩ := outcome_inj hn
    have hq := hcall q slot rfl
    cases hk
    refine ⟨.processing q, ?_, ?_, fun hne ↦ absurd rfl (hne q slot), ?_⟩
    · rw [Ctl.log, Ctl.setW_self]
      exact hs.snoc (by simp [Phase.next, hq])
    · rw [Ctl.log, Ctl.setW_self]
      exact ⟨hq, rfl⟩
    · rintro q' slot' h
      cases h
      exact ⟨by simp [Phase.calls, hq], rfl⟩
  | process q slot n =>
    obtain ⟨hq, rfl⟩ := hk
    by_cases hout : n = .out
    · subst hout
      cases x <;> simp only [WorkerPc.next, reduceCtorEq, Option.some.injEq, Prod.mk.injEq] at hn <;>
        obtain ⟨rfl, rfl, -⟩ := hn
      · rename_i rc
        by_cases hrc : rc = 0
        · subst hrc
          exact hlog _ (.between (q + 1)) rfl (by simp [Phase.next]) rfl
            (by simp [WorkerPc.Keeps, hq]) (by simp)
        · by_cases he : c.onError = true
          · exact hlog _ (.failed q rc) rfl (by simp [Phase.next, he, hrc]) rfl
              (by simp [WorkerPc.Keeps, hq, hrc, he]) (by simp)
          · exact hlog _ (.between (q + 1)) rfl (by simp [Phase.next, he]) rfl
              (by simp [WorkerPc.Keeps, hq, hrc, he]) (by simp)
      · exact hsame rfl ⟨hq, rfl⟩ (by simp)
    · have hstep : m' = (n.next m).1 ∧ p' = .process q slot (n.next m).2 := by
        cases n <;> cases x <;> first | exact absurd rfl hout | (cases hn; exact ⟨rfl, rfl⟩)
      obtain ⟨rfl, rfl⟩ := hstep
      exact hsame (n.next_frame i).2 ⟨hq, rfl⟩ (by simp)
  | countError q slot rc =>
    obtain ⟨rfl, rfl, rfl⟩ := outcome_inj hn
    exact hsilent _ rfl rfl rfl hk (by simp)
  | countPoolError q slot rc =>
    obtain ⟨rfl, rfl, rfl⟩ := outcome_inj hn
    obtain ⟨hq, hrc, rfl⟩ := hk
    refine hsame rfl ?_ (by simp)
    by_cases he : c.onError = true
    · simp [WorkerPc.Keeps, hq, he]
    · simp [WorkerPc.Keeps, hq, he]
  | callError q slot rc =>
    obtain ⟨rfl, rfl, rfl⟩ := outcome_inj hn
    obtain ⟨hq, rfl⟩ := hk
    exact hlog _ (.handling q) rfl (by simp [Phase.next]) rfl ⟨hq, rfl⟩ (by simp)
  | onError q slot rc n =>
    obtain ⟨hq, rfl⟩ := hk
    by_cases hout : n = .out
    · subst hout
      cases x <;> simp only [WorkerPc.next, reduceCtorEq, Option.some.injEq, Prod.mk.injEq] at hn <;>
        obtain ⟨rfl, rfl, -⟩ := hn
      · exact hlog _ (.between (q + 1)) rfl (by simp [Phase.next]) rfl
          (by simp [WorkerPc.Keeps, hq]) (by simp)
      · exact hsame rfl ⟨hq, rfl⟩ (by simp)
    · have hstep : m' = (n.next m).1 ∧ p' = .onError q slot rc (n.next m).2 := by
        cases n <;> cases x <;> first | exact absurd rfl hout | (cases hn; exact ⟨rfl, rfl⟩)
      obtain ⟨rfl, rfl⟩ := hstep
      exact hsame (n.next_frame i).2 ⟨hq, rfl⟩ (by simp)
  | count =>
    obtain ⟨rfl, rfl, rfl⟩ := outcome_inj hn
    cases hk
    refine ⟨.between ((m.w i).processed + 1), ?_, ?_, fun _ ↦ rfl, fun q slot h ↦ by cases h⟩ <;>
      rw [Ctl.setW_self]
    · exact hs
    · rfl

end Worker

/-! ## The one consumer -/

section Consumer

variable {c : Config} {s s' : Pool}

/-- Party `a` may take frames from ring `i`: the worker's thread, or shutdown after it. -/
def Pool.Consumes (c : Config) (s : Pool) (a : Agent) (i : Nat) : Prop :=
  (a = .worker i (s.ctl.w i).cur ∧ s.crew.stage i (s.ctl.w i).cur = .live) ∨
    (s.ctl.executor = some a ∧ (Fact.ended i).Holds c s.ctl s.crew)

theorem Pool.Consumes.unique {a b : Agent} {i : Nat} (ha : s.Consumes c a i)
    (hb : s.Consumes c b i) : a = b := by
  rcases ha with ⟨ha, hl⟩ | ⟨ha, he⟩ <;> rcases hb with ⟨hb, hl'⟩ | ⟨hb, he'⟩
  · rw [ha, hb]
  · have hend := he'.2
    rw [hl] at hend
    cases hend
  · have hend := he.2
    rw [hl'] at hend
    cases hend
  · exact Option.some.inj (ha.symm.trans hb)

/-- The locations of the executor from which it takes frames off ring `i`. -/
def ShutPc.drains (i : Nat) : ShutPc → Bool
  | .drainPop _ j | .drainCount _ j _ => j = i
  | _ => false

theorem ShutPc.drains_of_inHand {p : ShutPc} {i q : Nat} {l : Loc Nat Nat}
    (h : p.inHand i l = some q) : p.drains i = true := by
  cases p <;> simp only [ShutPc.inHand, reduceCtorEq] at h <;> simp only [ShutPc.drains] <;> grind

theorem Sound.drains_consumes (h : Sound c s) {n i : Nat} {p : ShutPc}
    (hp : (s.thr (.api n)).pc.shut? = some p) (hd : p.drains i = true) :
    s.Consumes c (.api n) i := by
  have hk := h.known n p hp
  have hx : p.executes = true := by
    cases p <;> first | rfl | cases hd
  have hend : (Fact.ended i).Holds c s.ctl s.crew := by
    cases p <;> simp only [ShutPc.drains, decide_eq_true_eq, Bool.false_eq_true] at hd
    · subst hd
      exact hk _ (by simp [ShutPc.facts])
    · subst hd
      exact hk _ (by simp [ShutPc.facts])
  exact Or.inr ⟨h.executes n p hp hx, hend⟩

/-- Whoever has a frame in hand is the one consumer. -/
theorem Sound.inHand_consumes (h : Sound c s) {a : Agent} {i q : Nat}
    (hq : s.inHand a i = some q) : s.Consumes c a i := by
  have hrun := h.seated.runs a
  simp only [Pool.inHand, Thread.inHand] at hq
  cases hpc : (s.thr a).pc with
  | worker p =>
    rw [hpc] at hq hrun
    cases a <;> simp only [Agent.runs, Bool.false_eq_true] at hrun
    rename_i j k
    dsimp only at hq
    split at hq
    · rename_i hj
      subst hj
      have hlive : s.crew.stage j k = .live := by
        simp only [Pool.crew, hpc]
        cases p <;> first | rfl | cases hq
      have hcur := h.live_cur hlive
      subst hcur
      exact Or.inl ⟨rfl, hlive⟩
    · cases hq
  | shut p =>
    rw [hpc] at hq hrun
    cases a <;> simp only [Agent.runs, Bool.false_eq_true] at hrun
    exact h.drains_consumes (by rw [hpc]; rfl) (ShutPc.drains_of_inHand hq)
  | destroy p =>
    rw [hpc] at hq hrun
    cases a <;> simp only [Agent.runs, Bool.false_eq_true] at hrun
    cases p with
    | shut p => exact h.drains_consumes (by rw [hpc]; rfl) (ShutPc.drains_of_inHand hq)
    | _ => cases hq
  | api p | sup p | helper p =>
    rw [hpc] at hq
    cases a <;> cases hq

theorem Sound.inHand_none (h : Sound c s) {a b : Agent} {i : Nat} (hc : s.Consumes c a i)
    (hb : b ≠ a) : s.inHand b i = none := by
  cases hq : s.inHand b i with
  | none => rfl
  | some q => exact absurd ((h.inHand_consumes hq).unique hc) hb

end Consumer

/-! ## One access to a ring -/

section Access

variable {c : Config} {s s' : Pool}

/-- `dequeue_pos` moves exactly when a pop takes the position. -/
theorem Ring.step_carried {s : RingSys Agent Nat} {g : Nat → Lap Agent Nat} {cap : Capacity}
    (hc : Cells cap s g) {a : Agent} {spurious : Bool} {r' : Ring Nat Agent Nat} {l' : Loc Nat Nat}
    (h : s.ring.step cap.val a spurious (s.loc a) = some (r', l')) :
    (r'.dequeuePos = s.ring.dequeuePos ∧ l'.carried = (s.loc a).carried) ∨
    (r'.dequeuePos = s.ring.dequeuePos + 1 ∧ (s.loc a).carried = none ∧
      l'.carried = some s.ring.dequeuePos ∧ (s.loc a).popKind.isSome = true) := by
  have hloc := hc.locs a
  generalize hl : s.loc a = l at h hloc
  cases l with
  | wake w v =>
    cases w <;> simp only [Ring.step, Ring.wakeStep] at h <;> cases v <;> grind [Loc.carried]
  | wait q w k =>
    cases w <;> simp only [Ring.step, Ring.waitStep] at h <;> cases k <;>
      grind [Loc.carried, Resume.loc]
  | popTake sc spin pos =>
    have hpos : sc = true → pos = s.ring.dequeuePos := hloc.2.1
    cases sc <;> simp only [Ring.step, offset_nat] at h <;> grind [Loc.carried, Loc.popKind]
  | enqSeq k spin pos | enqCas k spin pos =>
    simp only [Ring.step, Enq.ready, Enq.full, Enq.ahead, Enq.lost, Enq.reserved] at h
    cases k <;> grind [Loc.carried]
  | _ =>
    simp only [Ring.step, Ring.setCell] at h
    grind [Loc.carried]

theorem Thread.inHand_of_pops {a : Agent} {t : Thread} {i : Nat} {sc : Bool}
    (h : t.pc.place c a = .call i (.pop sc)) : t.inHand a i = t.loc.carried := by
  obtain ⟨pc, sh, l⟩ := t
  cases pc with
  | worker p =>
    cases a with
    | worker j k =>
      cases p <;> simp only [Pc.place, WorkerPc.place, reduceCtorEq, Place.call.injEq,
        and_false] at h
      simp only [Thread.inHand, if_pos h.1, WorkerPc.inHand]
    | _ => cases h
  | shut p =>
    cases p <;> simp only [Pc.place, ShutPc.place, reduceCtorEq] at h <;>
      simp only [Thread.inHand, ShutPc.inHand] <;> grind
  | destroy p =>
    cases p with
    | shut p =>
      cases p <;> simp only [Pc.place, DestroyPc.place, ShutPc.place, reduceCtorEq] at h <;>
        simp only [Thread.inHand, ShutPc.inHand] <;> grind
    | _ => cases h
  | api p => cases p <;> simp [Pc.place, ApiPc.place] at h
  | sup p => cases p <;> simp [Pc.place, SupPc.place] at h
  | helper p => cases h

theorem Thread.inHand_of_not_pops {a : Agent} {t : Thread} {i : Nat}
    (h : t.pc.place c a ≠ .call i (.pop c.ringMode.singleConsumer)) (l : Loc Nat Nat) :
    Thread.inHand a i { t with loc := l } = t.inHand a i := by
  obtain ⟨pc, sh, l₀⟩ := t
  cases pc with
  | worker p =>
    cases a <;> cases p <;> simp [Pc.place, WorkerPc.place] at h <;>
      simp [Thread.inHand, WorkerPc.inHand, h]
  | shut p => cases p <;> simp [Pc.place, ShutPc.place] at h <;> simp [Thread.inHand, ShutPc.inHand, h]
  | destroy p =>
    cases p with
    | shut p =>
      cases p <;> simp [Pc.place, DestroyPc.place, ShutPc.place] at h <;>
        simp [Thread.inHand, ShutPc.inHand, h]
    | _ => rfl
  | _ => rfl

end Access

/-! ## One step of a program -/

section Programs

variable {c : Config} {m m' : Ctl} {l : Loc Nat Nat} {x : Choice} {k : Cmd}

theorem RingFn.entry_carried (mode : RingMode) (f : RingFn) : (f.entry mode).carried = none := by
  cases f <;> rfl

/-- Outside the ring functions a step leaves no pop under way. -/
theorem Place.Turns.carried_none {mode : RingMode} {P P' : Place} {sh sh' : Nat} {l' : Loc Nat Nat}
    (h : Turns mode P l k P') (hP : P.Fits sh l) (hk : k.apply sh l = some (sh', l')) :
    l'.carried = none := by
  cases h with
  | work hq =>
    simp only [Cmd.apply, Option.some.injEq, Prod.mk.injEq] at hk
    rw [← hk.2, show l = .idle from hP]
    rfl
  | enter hq he =>
    obtain ⟨-, -, rfl⟩ := Cmd.apply_call hk
    rw [he]
    exact RingFn.entry_carried mode _
  | hold =>
    simp only [Cmd.apply, Option.some.injEq, Prod.mk.injEq] at hk
    rw [← hk.2, hP.2]
    rfl
  | publish =>
    simp only [Cmd.apply, Option.some.injEq, Prod.mk.injEq] at hk
    rw [← hk.2, hP.2]
    rfl
  | leave | reserved | commit =>
    simp only [Cmd.apply, Option.some.injEq, Prod.mk.injEq] at hk
    rw [← hk.2]
    rfl

theorem WorkerPc.inHand_idle (p : WorkerPc) (h : l.carried = none) :
    p.inHand l = p.inHand .idle := by
  cases p <;> first | rfl | exact h

theorem WorkerPc.next_hand {i : Nat} {p p' : WorkerPc}
    (hn : p.next c m i l x = some (m', p', k)) (hcall : ∀ q slot, p ≠ .call q slot)
    (hout : ∀ q, l ≠ .ret (.popped q none)) : p'.inHand .idle = p.inHand l := by
  cases p with
  | call q slot => exact absurd rfl (hcall q slot)
  | depth => cases l <;> simp only [WorkerPc.next] at hn <;> grind [WorkerPc.inHand, Loc.carried]
  | pop =>
    cases l with
    | idle =>
      obtain ⟨rfl, rfl, rfl⟩ := outcome_inj hn
      rfl
    | ret v =>
      cases v with
      | popped q out =>
        cases out with
        | none => exact absurd rfl (hout q)
        | some slot =>
          obtain ⟨rfl, rfl, rfl⟩ := outcome_inj hn
          rfl
      | rc n =>
        obtain ⟨rfl, rfl, rfl⟩ := outcome_inj hn
        rfl
      | _ => cases hn
    | _ => cases hn
  | process q slot n | onError q slot rc n =>
    cases n <;> cases x <;> simp only [WorkerPc.next, reduceCtorEq] at hn <;> grind [WorkerPc.inHand]
  | returned => cases hn
  | _ =>
    obtain ⟨rfl, rfl, rfl⟩ := outcome_inj hn
    first | rfl | (split <;> rfl)

section Heads

variable (i : Nat) (e : Exec)

@[simp] theorem Exec.teardown_hand : e.teardown.inHand i .idle = none := by
  rw [Exec.teardown]
  split <;> rfl

@[simp] theorem Exec.workerHead_hand (j : Nat) : (e.workerHead c j).inHand i .idle = none := by
  rw [Exec.workerHead]
  split <;> rfl

@[simp] theorem Exec.lateHead_hand (j : Nat) : (e.lateHead c j).inHand i .idle = none := by
  rw [Exec.lateHead]
  split <;> rfl

@[simp] theorem JoinFor.ok_hand (t : JoinFor) : (t.ok e).inHand i .idle = none := by
  cases t <;> rfl

@[simp] theorem JoinFor.timeout_hand (t : JoinFor) : (t.timeout e).inHand i .idle = none := by
  cases t <;> rfl

@[simp] theorem JoinFor.failed_hand (t : JoinFor) : (t.failed e).inHand i .idle = none := by
  cases t <;> rfl

@[simp] theorem MarkFor.after_hand (k : MarkFor) : (k.after e).inHand i .idle = none := by
  cases k <;> rfl

@[simp] theorem MarkFor.noted_hand (k : MarkFor) : (k.noted e).inHand i .idle = none := by
  cases k with
  | sup => exact Exec.teardown_hand i _
  | joinLate j | joinFailed j | seen j | stuck j | active | late | final => rfl

end Heads

theorem ShutPc.inHand_idle (p : ShutPc) (i : Nat) (h : l.carried = none) :
    p.inHand i l = p.inHand i .idle := by
  cases p <;> first | rfl | (simp only [ShutPc.inHand, h]; rfl)

/-- Shutdown takes a frame off a ring, and then counts it. -/
theorem ShutPc.next_hand {active : Int} {me : Agent} {p p' : ShutPc}
    (hn : p.next c m active me l x = some (m', p', k)) (hout : ∀ q, l ≠ .ret (.popped q none)) :
    (m'.drained = m.drained ∧ ∀ i, p'.inHand i .idle = p.inHand i l) ∨
    ∃ e j q, p = .drainCount e j q ∧ m'.drained = m.drained ++ [(j, q)] ∧
      ∀ i, p'.inHand i .idle = none := by
  cases p with
  | drainCount e j q =>
    obtain ⟨rfl, rfl, rfl⟩ := outcome_inj hn
    exact Or.inr ⟨e, j, q, rfl, rfl, fun _ ↦ rfl⟩
  | drainPop e j =>
    left
    have hm : m' = m := by
      cases l <;> simp only [ShutPc.next] at hn <;> grind
    refine ⟨by rw [hm], fun i ↦ ?_⟩
    cases l with
    | idle =>
      obtain ⟨rfl, rfl, rfl⟩ := outcome_inj hn
      rfl
    | ret v =>
      cases v with
      | popped q out =>
        cases out with
        | none => exact absurd rfl (hout q)
        | some slot =>
          obtain ⟨rfl, rfl, rfl⟩ := outcome_inj hn
          rfl
      | rc n =>
        obtain ⟨rfl, rfl, rfl⟩ := outcome_inj hn
        change ShutPc.inHand i .idle _ = if j = i then none else none
        rw [Exec.workerHead_hand, ite_self]
      | _ => cases hn
    | _ => cases hn
  | timeoutClose e j | closeAll e j | lateClose e j =>
    left
    simp only [ShutPc.next] at hn
    split at hn
    · obtain ⟨rfl, rfl | rfl⟩ := closeCall_cases hn <;> exact ⟨rfl, fun _ ↦ rfl⟩
    · cases hn
      exact ⟨rfl, fun _ ↦ rfl⟩
  | stopClose e j =>
    obtain ⟨rfl, rfl | rfl⟩ := closeCall_cases hn <;> exact Or.inl ⟨rfl, fun _ ↦ rfl⟩
  | waitLock | waitRelock | quiesceLock | lifeLock e last =>
    simp only [ShutPc.next, Option.map_eq_some_iff, Prod.mk.injEq] at hn
    obtain ⟨m₁, hm, rfl, rfl, -⟩ := hn
    rw [(Ctl.lockLife_eq hm).2]
    exact Or.inl ⟨rfl, fun _ ↦ rfl⟩
  | joinCreate e t =>
    cases x with
    | go =>
      obtain ⟨rfl, rfl, rfl⟩ := outcome_inj hn
      exact Or.inl ⟨rfl, fun _ ↦ rfl⟩
    | rc n =>
      simp only [ShutPc.next] at hn
      split at hn <;> cases hn
      exact Or.inl ⟨rfl, fun i ↦ JoinFor.failed_hand i e t⟩
    | _ => cases hn
  | cas life | waitLife | waitBlocked ticket =>
    simp only [ShutPc.next] at hn
    split at hn <;> cases hn <;> exact Or.inl ⟨rfl, fun _ ↦ rfl⟩
  | anyQuarantined e j =>
    simp only [ShutPc.next] at hn
    split at hn <;> cases hn <;> refine Or.inl ⟨rfl, fun _ ↦ ?_⟩
    · split <;> rfl
    · rfl
  | start =>
    obtain ⟨rfl, rfl, rfl⟩ := outcome_inj hn
    refine Or.inl ⟨rfl, fun _ ↦ ?_⟩
    cases m.lifecycle <;> rfl
  | drainClock e j =>
    obtain ⟨rfl, rfl, rfl⟩ := outcome_inj hn
    refine Or.inl ⟨rfl, fun i ↦ ?_⟩
    change ShutPc.inHand i .idle _ = none
    split
    · exact ite_self none
    · exact Exec.workerHead_hand i e _
  | joinPoll e t h =>
    obtain ⟨rfl, rfl, rfl⟩ := outcome_inj hn
    refine Or.inl ⟨rfl, fun _ ↦ ?_⟩
    cases m.box h with
    | none => rfl
    | some rc =>
      change ShutPc.inHand _ .idle (if rc = 0 then _ else _) = none
      split <;> simp only [JoinFor.ok_hand, JoinFor.failed_hand]
  | done rc => cases hn
  | _ =>
    obtain ⟨rfl, rfl, rfl⟩ := outcome_inj hn
    refine Or.inl ⟨rfl, fun _ ↦ ?_⟩
    change ShutPc.inHand _ .idle _ = none
    try simp only [Exec.teardown_hand, MarkFor.after_hand, MarkFor.noted_hand,
      Exec.lateHead_hand]
    repeat' split
    all_goals first | rfl | simp only [Exec.teardown_hand, Exec.workerHead_hand,
      Exec.lateHead_hand, JoinFor.timeout_hand]

end Programs

/-! ## The books are kept -/

section Books

variable {c : Config} {s s' : Pool} {i : Nat} {ph ph' : Phase}

/-- No pop of a pool's ring hands out `NULL`. -/
theorem Sound.popped_some (h : Sound c s) (a : Agent) (q : Nat) :
    (s.thr a).loc ≠ .ret (.popped q none) := by
  intro hl
  have hlin := (h.rings (s.thr a).sh).linearized
  have hans : ((s.shard (s.thr a).sh).loc a).answer = some (q, none) := by
    simp only [Pool.shard, if_true, hl]
    rfl
  obtain ⟨f, hf, -⟩ := hlin.popped q none (hlin.returned a _ hans)
  cases hf

theorem Sound.pops_consumes (h : Sound c s) {a : Agent} (hp : s.pops c a i) : s.Consumes c a i := by
  rcases h.pops_cases hp with ⟨rfl, hpc⟩ | ⟨hx, hj, hend, -⟩
  · refine Or.inl ⟨rfl, ?_⟩
    simp only [Pool.crew, hpc]
    rfl
  · exact Or.inr ⟨hx, hj, hend⟩

/-- A step that takes no frame off the ring, and neither calls `process` nor counts a frame. -/
theorem Ledger.same (hl : Ledger c s i ph) (hcalls : ph'.calls = ph.calls)
    (hserial : Serial c.onError (s'.ctl.w i).events ph')
    (hkeeps : ∀ p, (s'.thr (.worker i (s'.ctl.w i).cur)).pc = .worker p →
      p.Keeps c.onError (s'.ctl.w i).processed ph')
    (hdeq : (s'.ring i).dequeuePos = (s.ring i).dequeuePos)
    (hdrained : s'.ctl.drainedAt i = s.ctl.drainedAt i)
    (hhand : ∀ a, s'.inHand a i = s.inHand a i)
    (hended : (Fact.ended i).Holds c s.ctl s.crew → (Fact.ended i).Holds c s'.ctl s'.crew) :
    Ledger c s' i ph' where
  serial := hserial
  keeps := hkeeps
  hand a p hp := by
    rw [hdeq, hdrained, hcalls]
    exact hl.hand a p ((hhand a).symm.trans hp)
  free hn := by
    rw [hdeq, hdrained, hcalls]
    exact hl.free fun a ↦ (hhand a).symm.trans (hn a)
  drained := by
    rw [hdrained, hcalls]
    exact hl.drained
  stopped hne := hended (hl.stopped (hdrained ▸ hne))

theorem Pool.inHand_update {a : Agent} {t : Thread} (ctl : Ctl) (dat : Dat)
    (ring : Nat → Ring Nat Agent Nat) (b : Agent) :
    Pool.inHand ⟨ctl, dat, ring, Function.update s.thr a t⟩ b i =
      if b = a then t.inHand a i else s.inHand b i := by
  by_cases hb : b = a
  · subst hb
    simp only [Pool.inHand, Function.update_self, if_true]
  · simp only [Pool.inHand, Function.update_of_ne hb, if_neg hb]

/-- An access to a ring. -/
theorem Ledger.access (h : Sound c s) (hl : Ledger c s i ph) {a : Agent} {spurious : Bool}
    {r : Ring Nat Agent Nat} {l : Loc Nat Nat} (d : Dat) (hact : (s.thr a).loc.active = true)
    (hstep : (s.ring (s.thr a).sh).step c.capacity.val a spurious (s.thr a).loc = some (r, l))
    (hended : (Fact.ended i).Holds c s.ctl s.crew → (Fact.ended i).Holds c s.ctl
      (Pool.crew ⟨s.ctl, d, Function.update s.ring (s.thr a).sh r,
        Function.update s.thr a { s.thr a with loc := l }⟩)) :
    Ledger c ⟨s.ctl, d, Function.update s.ring (s.thr a).sh r,
      Function.update s.thr a { s.thr a with loc := l }⟩ i ph := by
  have hkeeps : ∀ p, (Function.update s.thr a { s.thr a with loc := l }
      (.worker i (s.ctl.w i).cur)).pc = .worker p → p.Keeps c.onError (s.ctl.w i).processed ph := by
    intro p hp
    refine hl.keeps p ?_
    by_cases hb : .worker i (s.ctl.w i).cur = a
    · rw [hb, Function.update_self] at hp
      rw [hb]
      exact hp
    · rwa [Function.update_of_ne hb] at hp
  by_cases hpops : s.pops c a i
  · -- the party is in a pop of this ring
    have hsh : (s.thr a).sh = i := by
      have hfit := h.seated.fits a
      rw [show (s.thr a).pc.place c a = _ from hpops] at hfit
      rcases hfit with ⟨hidle, -⟩ | ⟨hsh, -⟩
      · rw [hidle] at hact
        cases hact
      · exact hsh
    have hold : s.inHand a i = (s.thr a).loc.carried := Thread.inHand_of_pops hpops
    have hnew : Thread.inHand a i { s.thr a with loc := l } = l.carried :=
      Thread.inHand_of_pops (c := c) hpops
    have hloc : (s.shard i).loc a = (s.thr a).loc := if_pos hsh
    obtain ⟨g, hc, -⟩ := (h.rings i).laps
    rw [hsh] at hstep
    rcases Ring.step_carried hc (hloc ▸ hstep) with ⟨hdeq, hcar⟩ | ⟨hdeq, hcar, hcar', -⟩
    · refine hl.same rfl hl.serial hkeeps ?_ rfl (fun b ↦ ?_) hended
      · simp only [hsh, Function.update_self]
        exact hdeq
      · rw [Pool.inHand_update]
        split
        · rename_i hb
          rw [hb, hnew, hold, hcar, hloc]
        · rfl
    · have hfree : ∀ b, s.inHand b i = none := by
        intro b
        by_cases hb : b = a
        · rw [hb, hold, ← hloc, hcar]
        · exact h.inHand_none (h.pops_consumes hpops) hb
      have hpos := hl.free hfree
      have hdeq' : (Function.update s.ring (s.thr a).sh r i).dequeuePos =
          (s.ring i).dequeuePos + 1 := by
        rw [hsh, Function.update_self]
        exact hdeq
      have hring : (s.shard i).ring.dequeuePos = (s.ring i).dequeuePos := rfl
      refine
        { serial := hl.serial, keeps := hkeeps, drained := hl.drained
          hand := fun b p hp ↦ ?_, free := fun hn ↦ ?_
          stopped := fun hne ↦ hended (hl.stopped hne) }
      · rw [Pool.inHand_update] at hp
        split at hp
        · rw [hnew, hcar', Option.some.injEq, hring] at hp
          subst hp
          exact ⟨hdeq', hpos⟩
        · rw [hfree b] at hp
          cases hp
      · have hself := hn a
        rw [Pool.inHand_update, if_pos rfl, hnew, hcar'] at hself
        cases hself
  · have hhand : ∀ b, Pool.inHand ⟨s.ctl, d, Function.update s.ring (s.thr a).sh r,
        Function.update s.thr a { s.thr a with loc := l }⟩ b i = s.inHand b i := by
      intro b
      rw [Pool.inHand_update]
      split
      · rename_i hb
        rw [hb]
        exact Thread.inHand_of_not_pops (c := c) hpops l
      · rfl
    refine hl.same rfl hl.serial hkeeps ?_ rfl hhand hended
    by_cases hsh : (s.thr a).sh = i
    · have hloc : (s.shard i).loc a = (s.thr a).loc := if_pos hsh
      obtain ⟨g, hc, -⟩ := (h.rings i).laps
      rw [hsh] at hstep
      simp only [hsh, Function.update_self]
      rcases Ring.step_carried hc (hloc ▸ hstep) with ⟨hdeq, -⟩ | ⟨-, -, -, hkind⟩
      · exact hdeq
      · obtain ⟨sc, hkind⟩ := Option.isSome_iff_exists.mp hkind
        exact absurd (h.seated.pops_of_popKind hkind) hpops
    · simp only [Function.update_of_ne (Ne.symm hsh)]

theorem Thread.inHand_shut {t : Thread} {p : ShutPc} (a : Agent) (hp : t.pc.shut? = some p) :
    t.inHand a i = p.inHand i t.loc := by
  obtain ⟨pc, sh, l⟩ := t
  cases pc with
  | shut q =>
    cases hp
    rfl
  | destroy q =>
    cases q with
    | shut q =>
      cases hp
      rfl
    | _ => cases hp
  | _ => cases hp

theorem Ctl.drainedAt_snoc {m m' : Ctl} {j q : Nat} (h : m'.drained = m.drained ++ [(j, q)]) :
    m'.drainedAt i = if j = i then m.drainedAt i ++ [q] else m.drainedAt i := by
  rw [Ctl.drainedAt, h, List.filter_append, List.map_append, Ctl.drainedAt]
  by_cases hj : j = i <;> simp [hj]

/-- A step of a shutdown call. -/
theorem Ledger.shut_step (h : Sound c s) (hl : Ledger c s i ph) {n : Nat} {q q' : ShutPc}
    {m : Ctl} {active : Int} {x : Choice} {k : Cmd} {pc : Pc} {sh : Nat} {l : Loc Nat Nat}
    (hq : (s.thr (.api n)).pc.shut? = some q)
    (hn : q.next c s.ctl active (.api n) (s.thr (.api n)).loc x = some (m, q', k))
    (hpc : pc.shut? = some q') (hcar : l.carried = none)
    (hended : (Fact.ended i).Holds c s.ctl s.crew → (Fact.ended i).Holds c m s.crew) :
    Ledger c ⟨m, s.dat, s.ring, Function.update s.thr (.api n) ⟨pc, sh, l⟩⟩ i ph := by
  have hw := (ShutPc.next_frame hn).2 i
  have hserial : Serial c.onError (m.w i).events ph := by
    rw [hw]
    exact hl.serial
  have hkeeps : ∀ p, (Function.update s.thr (.api n) ⟨pc, sh, l⟩
      (.worker i (m.w i).cur)).pc = .worker p → p.Keeps c.onError (m.w i).processed ph := by
    intro p hp
    rw [hw] at hp ⊢
    rw [Function.update_of_ne (by simp)] at hp
    exact hl.keeps p hp
  have hcrew : Pool.crew ⟨m, s.dat, s.ring, Function.update s.thr (.api n) ⟨pc, sh, l⟩⟩ = s.crew :=
    Pool.crew_api m s.dat
  rw [← hcrew] at hended
  have hold : s.inHand (.api n) i = q.inHand i (s.thr (.api n)).loc := Thread.inHand_shut _ hq
  have hnew : Thread.inHand (.api n) i ⟨pc, sh, l⟩ = q'.inHand i .idle :=
    (Thread.inHand_shut (t := ⟨pc, sh, l⟩) _ hpc).trans (q'.inHand_idle i hcar)
  rcases ShutPc.next_hand hn (h.popped_some _) with ⟨hd, hhand⟩ | ⟨e, j, p, rfl, hd, hhand⟩
  · refine hl.same rfl hserial hkeeps rfl ?_ (fun b ↦ ?_) hended
    · simp only [Ctl.drainedAt, hd]
    · rw [Pool.inHand_update]
      split
      · rename_i hb
        rw [hb, hnew, hold, hhand]
      · rfl
  · have hat := Ctl.drainedAt_snoc (i := i) hd
    by_cases hj : j = i
    · subst hj
      rw [if_pos rfl] at hat
      have hp : s.inHand (.api n) j = some p := hold.trans (if_pos rfl)
      obtain ⟨hdeq, hpos⟩ := hl.hand _ _ hp
      have hend : (Fact.ended j).Holds c s.ctl s.crew :=
        h.known n _ hq _ (by simp [ShutPc.facts])
      have hnone : ∀ b, Pool.inHand ⟨m, s.dat, s.ring, Function.update s.thr (.api n) ⟨pc, sh, l⟩⟩
          b j = none := by
        intro b
        rw [Pool.inHand_update]
        split
        · rw [hnew, hhand]
        · rename_i hb
          exact h.inHand_none (h.inHand_consumes hp) hb
      refine
        { serial := hserial, keeps := hkeeps, stopped := fun _ ↦ hended hend
          hand := fun b p' hp' ↦ ?_, free := fun _ ↦ ?_, drained := ?_ }
      · rw [hnone b] at hp'
        cases hp'
      · rw [hat, List.length_append, hdeq, hpos]
        rfl
      · rw [hat, List.length_append, List.length_singleton, List.range'_concat, ← hl.drained, hpos,
          one_mul]
    · rw [if_neg hj] at hat
      refine hl.same rfl hserial hkeeps rfl hat (fun b ↦ ?_) hended
      rw [Pool.inHand_update]
      split
      · rename_i hb
        rw [hb, hnew, hold, hhand, ShutPc.inHand, if_neg hj]
      · rfl

/-- A step of the worker's own thread. -/
theorem Ledger.worker_step (h : Sound c s) (hl : Ledger c s i ph) {p p' : WorkerPc} {m : Ctl}
    {x : Choice} {k : Cmd} {sh : Nat} {l : Loc Nat Nat}
    (hpc : (s.thr (.worker i (s.ctl.w i).cur)).pc = .worker p)
    (hn : p.next c s.ctl i (s.thr (.worker i (s.ctl.w i).cur)).loc x = some (m, p', k))
    (hcar : l.carried = none)
    (hended : (Fact.ended i).Holds c s.ctl s.crew → (Fact.ended i).Holds c m
      (Pool.crew ⟨m, s.dat, s.ring,
        Function.update s.thr (.worker i (s.ctl.w i).cur) ⟨.worker p', sh, l⟩⟩)) :
    ∃ ph', Ledger c ⟨m, s.dat, s.ring,
      Function.update s.thr (.worker i (s.ctl.w i).cur) ⟨.worker p', sh, l⟩⟩ i ph' := by
  obtain ⟨hframe, hown⟩ := WorkerPc.next_frame hn
  have hcur : (m.w i).cur = (s.ctl.w i).cur := by rw [hown, Worker.cur, Worker.cur]
  have hat : m.drainedAt i = s.ctl.drainedAt i := by rw [hframe.1, Ctl.drainedAt, Ctl.drainedAt]
  have hold : s.inHand (.worker i (s.ctl.w i).cur) i =
      p.inHand (s.thr (.worker i (s.ctl.w i).cur)).loc := by
    simp only [Pool.inHand, Thread.inHand, hpc, if_true]
  have hnew : Thread.inHand (.worker i (s.ctl.w i).cur) i ⟨.worker p', sh, l⟩ = p'.inHand .idle := by
    simp only [Thread.inHand, if_true]
    exact p'.inHand_idle hcar
  have hkeep := hl.keeps p hpc
  have hstage : s.crew.stage i (s.ctl.w i).cur = p.stage := by
    simp only [Pool.crew, hpc]
    rfl
  -- at the call of `process` nothing has been drained yet, and the frame in hand is next in turn
  have hcall : ∀ q slot, p = .call q slot →
      q = (s.ctl.w i).processed ∧ ph.calls = q ∧ s.ctl.drainedAt i = [] ∧
        (s.ring i).dequeuePos = q + 1 := by
    rintro q slot rfl
    have hnil : s.ctl.drainedAt i = [] := by
      by_contra hne
      have hend := (hl.stopped hne).2
      rw [hstage] at hend
      cases hend
    obtain ⟨hdeq, hpos⟩ := hl.hand _ q hold
    rw [hnil, show ph = .between (s.ctl.w i).processed from hkeep] at hpos
    exact ⟨hpos, by rw [show ph = .between (s.ctl.w i).processed from hkeep]; exact hpos.symm, hnil,
      hdeq⟩
  obtain ⟨ph', hserial, hkeeps, hquiet, hstart⟩ :=
    WorkerPc.next_books hn hl.serial hkeep fun q slot hp ↦ (hcall q slot hp).1
  have hkeeps' : ∀ p₁, (Function.update s.thr (.worker i (s.ctl.w i).cur) ⟨.worker p', sh, l⟩
      (.worker i (m.w i).cur)).pc = .worker p₁ → p₁.Keeps c.onError (m.w i).processed ph' := by
    intro p₁ hp₁
    rw [hcur, Function.update_self] at hp₁
    cases hp₁
    exact hkeeps
  refine ⟨ph', ?_⟩
  by_cases hp : ∃ q slot, p = .call q slot
  · obtain ⟨q, slot, rfl⟩ := hp
    obtain ⟨-, hcalls, hnil, hdeq⟩ := hcall q slot rfl
    obtain ⟨hcalls', rfl⟩ := hstart q slot rfl
    have hnone : ∀ b, Pool.inHand ⟨m, s.dat, s.ring, Function.update s.thr
        (.worker i (s.ctl.w i).cur) ⟨.worker (.process q slot .out), sh, l⟩⟩ b i = none := by
      intro b
      rw [Pool.inHand_update]
      split
      · exact hnew
      · rename_i hb
        exact h.inHand_none (h.inHand_consumes hold) hb
    refine
      { serial := hserial, keeps := hkeeps', hand := fun b q' hq' ↦ ?_, free := fun _ ↦ ?_
        drained := ?_, stopped := fun hne ↦ absurd (hat.trans hnil) hne }
    · rw [hnone b] at hq'
      cases hq'
    · rw [hat, hnil, hcalls', hcalls, hdeq]
      rfl
    · rw [hat, hnil]
      rfl
  · have hne : ∀ q slot, p ≠ .call q slot := fun q slot hq ↦ hp ⟨q, slot, hq⟩
    refine hl.same (hquiet hne) hserial hkeeps' rfl hat (fun b ↦ ?_) hended
    rw [Pool.inHand_update]
    split
    · rename_i hb
      rw [hb, hnew, hold]
      exact WorkerPc.next_hand hn hne (h.popped_some _)
    · rfl

/-- A step that concerns neither the ring nor the worker. -/
theorem Ledger.other (hl : Ledger c s i ph) {a : Agent} {t : Thread} {m : Ctl} (d : Dat)
    (hw : (m.w i).events = (s.ctl.w i).events ∧ (m.w i).processed = (s.ctl.w i).processed)
    (hcur : (m.w i).cur = (s.ctl.w i).cur) (hdrained : m.drained = s.ctl.drained)
    (ha : a ≠ .worker i (s.ctl.w i).cur) (hold : s.inHand a i = none)
    (hnew : t.inHand a i = none)
    (hended : (Fact.ended i).Holds c s.ctl s.crew → (Fact.ended i).Holds c m
      (Pool.crew ⟨m, d, s.ring, Function.update s.thr a t⟩)) :
    Ledger c ⟨m, d, s.ring, Function.update s.thr a t⟩ i ph := by
  refine hl.same rfl (by rw [hw.1]; exact hl.serial) (fun p hp ↦ ?_) rfl
    (by rw [Ctl.drainedAt, hdrained, Ctl.drainedAt]) (fun b ↦ ?_) hended
  · simp only [hcur, Function.update_of_ne (Ne.symm ha)] at hp
    rw [hw.2]
    exact hl.keeps p hp
  · rw [Pool.inHand_update]
    split
    · rename_i hb
      rw [hb, hnew, hold]
    · rfl

end Books

/-! ## The run -/

section Run

variable {c : Config} {s s' : Pool} {i : Nat} {ph : Phase}

theorem ShutPc.inHand_start {n : Nat} {pc : Pc} {e : Label} {sh : Nat} {l : Loc Nat Nat}
    (h : (∃ pool f, e = .call n pool f ∧ pc = .api (f.start c pool)) ∨
      (∃ tls, e = .shutdown n tls ∧ pc = .shut (if tls then .done edeadlk else .start)) ∨
      (e = .destroy n ∧ pc = .destroy .cas)) : Thread.inHand (.api n) i ⟨pc, sh, l⟩ = none := by
  rcases h with ⟨pool, f, -, rfl⟩ | ⟨tls, -, rfl⟩ | ⟨-, rfl⟩
  · rfl
  · cases tls <;> rfl
  · rfl

theorem Ledger.step (h : Sound c s) (hl : Ledger c s i ph) {e : Label}
    (hst : s.step c e = some s') : ∃ ph', Ledger c s' i ph' := by
  have h' := h.step hst
  have hended := fun hend ↦ h.ended_step hst (i := i) hend
  rcases Pool.step_cases hst with ⟨t, -, rfl⟩ | ⟨n, pc, hpc, hstart, rfl⟩ |
    ⟨a, x, spurious, r, l, -, -, hact, -, hstep, rfl⟩ |
    ⟨a, x, m, d, pc, k, sh, l, -, hex, hact, hnext, hk, rfl⟩
  · exact ⟨ph, hl.same rfl hl.serial hl.keeps rfl rfl (fun _ ↦ rfl) hended⟩
  · refine ⟨ph, hl.other s.dat ⟨rfl, rfl⟩ rfl rfl (by simp) ?_ (ShutPc.inHand_start hstart) hended⟩
    simp only [Pool.inHand, Thread.inHand, hpc]
  · exact ⟨ph, hl.access h _ hact hstep hended⟩
  · have hturn := (Pool.next_turns (h.seated.runs a) hnext).1
    have hcar := hturn.carried_none (h.seated.fits a) hk
    rcases Pool.next_cases (h.seated.runs a) hnext with
      ⟨n, p, p', rfl, hp, rfl, rfl, hn⟩ | ⟨n, p, p', rfl, hp, rfl, rfl, hn⟩ |
      ⟨n, p, p', rfl, hp, rfl, rfl, hn⟩ | ⟨j, k', p, p', rfl, hp, rfl, rfl, hn⟩ |
      ⟨p, p', rfl, hp, rfl, rfl, hn⟩ | ⟨j, p, p', rfl, hp, rfl, rfl, hn⟩
    · refine ⟨ph, hl.other d ⟨rfl, rfl⟩ rfl rfl (by simp) ?_ rfl hended⟩
      simp only [Pool.inHand, Thread.inHand, hp]
    · exact ⟨ph, hl.shut_step h (by rw [hp]; rfl) hn rfl hcar fun hend ↦ by
        have he := hended hend
        rwa [Pool.crew_api] at he⟩
    · rcases DestroyPc.next_frame hn with ⟨q, q', rfl, rfl, hn'⟩ | hframe
      · exact ⟨ph, hl.shut_step h (by rw [hp]; rfl) hn' rfl hcar fun hend ↦ by
          have he := hended hend
          rwa [Pool.crew_api] at he⟩
      · obtain ⟨hframe, hold, hnew⟩ := hframe
        rw [Ctl.DestroyFrame] at hframe
        refine ⟨ph, hl.other _ (by rw [hframe]; exact ⟨rfl, rfl⟩) (by rw [hframe])
          (by rw [hframe]) (by simp) ?_ ?_ hended⟩
        · simp only [Pool.inHand, Thread.inHand, hp]
          cases p with
          | shut q =>
            obtain ⟨rc, rfl⟩ := hold q rfl
            rfl
          | _ => rfl
        · simp only [Thread.inHand]
          cases p' with
          | shut q =>
            rw [hnew q rfl]
            rfl
          | _ => rfl
    · by_cases hji : j = i
      · subst hji
        simp only [Pool.exists, decide_eq_true_eq] at hex
        have hk' : k' = (s.ctl.w j).cur := by
          refine (h.custody.post j).current hex.2 ?_
          simp only [Pool.crew, hp]
          intro hend
          cases p with
          | returned => cases hn
          | _ => cases hend
        subst hk'
        exact hl.worker_step h hp hn hcar hended
      · obtain ⟨hframe, -⟩ := WorkerPc.next_frame hn
        refine ⟨ph, hl.other _ (by rw [hframe.2 i (Ne.symm hji)]; exact ⟨rfl, rfl⟩)
          (by rw [hframe.2 i (Ne.symm hji)]) (by rw [hframe.1]) (by simp [hji]) ?_ ?_ hended⟩
        · simp only [Pool.inHand, Thread.inHand, hp, if_neg hji]
        · simp only [Thread.inHand, if_neg hji]
    · obtain ⟨hframe, hw⟩ := SupPc.next_frame hn
      have hwi := hw i
      rw [Worker.SupFrame] at hwi
      rw [Ctl.SupFrame] at hframe
      rcases SupPc.next_spawned hn i with hsame | ⟨hmore, -⟩
      · refine ⟨ph, hl.other _ (by rw [hwi]; exact ⟨rfl, rfl⟩)
          (by rw [Worker.cur, hsame, Worker.cur]) (by rw [hframe]) (by simp) ?_ rfl hended⟩
        simp only [Pool.inHand, Thread.inHand, hp]
      · -- a new thread: the one before it has returned, between two callbacks
        have hcur : (m.w i).cur = (s.ctl.w i).cur + 1 := by
          have hpos := (h.custody.post i).spawned
          simp only [Worker.cur]
          omega
        have hthr : ∀ j k, (Function.update s.thr .sup ⟨.sup p', sh, l⟩ (.worker j k)) =
            s.thr (.worker j k) := fun j k ↦ Function.update_of_ne (by simp) _ _
        have hlast : (s.thr (.worker i (s.ctl.w i).cur)).pc = .worker .returned := by
          have hend := ((h'.custody.post i).past (s.ctl.w i).cur (by simp only [hcur]; omega)).1
          have hruns := h.seated.runs (.worker i (s.ctl.w i).cur)
          simp only [Pool.crew, hthr] at hend
          cases hpc : (s.thr (.worker i (s.ctl.w i).cur)).pc with
          | worker q =>
            rw [hpc] at hend
            cases q <;> first | rfl | cases hend
          | _ =>
            rw [hpc] at hruns
            cases hruns
        have hkeep : ph = .between (s.ctl.w i).processed := hl.keeps _ hlast
        refine ⟨ph, hl.same rfl (by rw [hwi]; exact hl.serial) (fun q hq ↦ ?_) rfl
          (by rw [Ctl.drainedAt, hframe, Ctl.drainedAt]) (fun b ↦ ?_) hended⟩
        · have hfresh := ((h.custody.post i).future ((s.ctl.w i).cur + 1) (Nat.lt_succ_self _)).1
          simp only [hcur, hthr] at hq
          simp only [Pool.crew, hq] at hfresh
          have hproc : (m.w i).processed = (s.ctl.w i).processed := by rw [hwi]
          cases q with
          | entry => exact hproc.symm ▸ hkeep
          | _ => cases hfresh
        · rw [Pool.inHand_update]
          split
          · rename_i hb
            simp only [hb, Pool.inHand, Thread.inHand, hp]
          · rfl
    · have hframe := HelperPc.next_frame hn
      refine ⟨ph, hl.other _ (by rw [hframe]; exact ⟨rfl, rfl⟩) (by rw [hframe]) (by rw [hframe])
        (by simp) ?_ rfl hended⟩
      simp only [Pool.inHand, Thread.inHand, hp]

theorem Ledger.run {ok : Pool → Label → Prop} {now : Nat}
    (hrun : Steps (Pool.step c) ok (Pool.init c now) s) (i : Nat) : ∃ ph, Ledger c s i ph :=
  hrun.invariant_under (P := fun s ↦ ∃ ph, Ledger c s i ph) (fun _ ht ↦ Sound.run ht)
    (fun _ _ _ hs _ ⟨_, hl⟩ _ hst ↦ hl.step hs hst) ⟨_, .init now i⟩

end Run

end Awp
