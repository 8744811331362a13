import AsyncWorkerPool.Pool.Verdict

/-!
# Stranded — when the supervisor may leave a quarantined pool

A restart that fails sets `supervisor_stop`, and the supervisor leaves although the pool still runs.
From then on nobody asks a worker to stop and nobody closes its ring, so that what becomes of the
workers is decided at that store: a thread that is in its loop stays there, and for any other the
ring must be closed already.
-/

open Foundation

namespace Awp

/-- The supervisor has left its main loop. -/
def SupPc.left : SupPc → Bool
  | .exitPhase | .exitAlive | .exitLock | .exitBroadcast | .exitUnlock | .returned => true
  | _ => false

/-- Once the supervisor has left a quarantined pool that still runs, no thread has returned from an
open ring. -/
def Pool.NoStranded (c : Config) (s : Pool) : Prop :=
  s.ctl.lifecycle = .running → s.ctl.quarantined = true →
    (∃ p, (s.thr .sup).pc = .sup p ∧ p.left = true) →
    ∀ i < c.nWorkers, (s.thr (s.ctl.handle i)).pc = .worker .returned → (s.ring i).closed = true

/-- The call of `awp_ring_depth` that stands here will not return 0. -/
def Loc.finds (r : Ring Nat Agent Nat) : Loc Nat Nat → Bool
  | .depthDeq enq => r.dequeuePos < enq
  | .ret (.depth n) => n ≠ 0
  | _ => r.dequeuePos < r.enqueuePos

/-- A worker's thread in its loop that will not leave it unless asked to or for a closed ring. -/
def Thread.loops (t : Thread) (r : Ring Nat Agent Nat) : Bool :=
  match t.pc with
  | .worker .depth => t.loc.finds r
  | .worker .exit | .worker .returned => false
  | .worker _ => true
  | _ => false

def Pool.Stays (s : Pool) (i : Nat) : Prop :=
  (s.ring i).closed = true ∨
    ((s.ctl.w i).stop = false ∧ (s.thr (s.ctl.handle i)).loops (s.ring i) = true)

/-- The step is not the end of a failed restart that leaves one of the other workers to itself. -/
def Careful (c : Config) (s : Pool) : Label → Prop
  | .step .sup _ =>
    match (s.thr .sup).pc with
    | .sup (.failStop r) => s.ctl.lifecycle = .running → ∀ i < c.nWorkers, i ≠ r.i → s.Stays i
    | _ => True
  | _ => True

instance (s : Pool) (i : Nat) : Decidable (s.Stays i) :=
  inferInstanceAs (Decidable ((s.ring i).closed = true ∨
    ((s.ctl.w i).stop = false ∧ (s.thr (s.ctl.handle i)).loops (s.ring i) = true)))

instance (c : Config) (s : Pool) (e : Label) : Decidable (Careful c s e) := by
  unfold Careful
  split
  · split <;> infer_instance
  · infer_instance

/-! ## A ring that has been found closed -/

/-- A pop that has found its ring closed, and so far empty. -/
def Loc.emptied : Loc Nat Nat → Bool
  | .popAgain _ _ _ | .ret (.rc _) => true
  | _ => false

/-- The ring that a failed restart has closed; `past` as in `SupPc.reopens`. -/
def SupPc.failed (past : Bool) : SupPc → Option Nat
  | .failClose r => if past then some r.i else none
  | .failMark r | .failFrames r | .failAbort r | .failStop r => some r.i
  | _ => none

structure Pool.Noted (s : Pool) : Prop where
  seen : ∀ i k, (s.thr (.worker i k)).pc = .worker .pop →
    (s.thr (.worker i k)).loc.emptied = true → (s.ring i).closed = true
  failed : ∀ p i, (s.thr .sup).pc = .sup p → p.failed (s.thr .sup).loc.past = some i →
    (s.ring i).closed = true

section Noted

variable {c : Config} {s s' : Pool} {i k : Nat}

/-- Only the supervisor opens a ring, for a worker whose thread it has joined. -/
theorem Seated.step_closed (hs : Seated c s) {e : Label} (hst : s.step c e = some s')
    (hclosed : (s.ring i).closed = true) : (s'.ring i).closed = true ∨
      ∃ r, (s.thr .sup).pc = .sup (.reopen r) ∧ r.i = i := by
  cases Pool.step_act hs hst with
  | access a x spurious r l hact hstep =>
    by_cases hi : i = (s.thr a).sh
    · subst hi
      rw [Pool.accessed_ring_self]
      rcases Ring.step_flag hstep with ⟨-, hkeep⟩ | ⟨v, hl, hv, -⟩
      · exact Or.inl (hkeep.trans hclosed)
      · cases v with
        | true => exact Or.inl hv
        | false =>
          obtain ⟨rfl, q, hpc, hq⟩ := hs.reopens hl
          exact Or.inr ⟨q, hpc, hq⟩
    · rw [Pool.accessed_ring_of_ne hi]
      exact Or.inl hclosed
  | _ => exact Or.inl hclosed

/-- The ring of a thread that is popping is not reopened. -/
theorem Sound.not_reopened (hs : Sound c s) (hp : (s.thr (.worker i k)).pc = .worker .pop)
    {r : Round} (hsup : (s.thr .sup).pc = .sup (.reopen r)) : r.i ≠ i := by
  rintro rfl
  have hlive : s.crew.stage r.i k = .live := by
    simp only [Pool.crew, hp]
    rfl
  have hjoined : (s.ctl.w r.i).joined = true := hs.custody.sup (.joined r.i) (by
    simp only [Pool.crew, hsup]
    rfl)
  have hpost := hs.custody.post r.i
  have hend := hpost.after _ (hpost.joined hjoined)
  rw [← hs.live_cur hlive, hlive] at hend
  cases hend

/-- A pop looks at the flag, and remembers what it has seen. -/
theorem Ring.step_emptied {cap : Nat} {a : Agent} {spurious sc : Bool} {r r' : Ring Nat Agent Nat}
    {l l' : Loc Nat Nat} (hspan : (RingFn.pop sc).spans l = true)
    (h : r.step cap a spurious l = some (r', l')) (hl : l'.emptied = true) :
    r'.closed = r.closed ∧ (r.closed = true ∨ l.emptied = true) := by
  cases l with
  | wait q w k =>
    cases q <;> cases k <;> simp only [RingFn.spans, Bool.false_eq_true] at hspan
    cases w <;> simp only [Ring.step, Ring.waitStep] at h <;> grind [Loc.emptied, Resume.loc]
  | wake w v =>
    cases v <;> simp only [RingFn.spans, Bool.false_eq_true] at hspan
    cases w <;> simp only [Ring.step, Ring.wakeStep] at h <;> grind [Loc.emptied]
  | popTake sc' spin pos =>
    cases sc' <;> simp only [Ring.step] at h <;> grind [Loc.emptied]
  | popPos | popSeq | popData | popClear | popStore | popClosed | popAgain =>
    simp only [Ring.step] at h
    grind [Loc.emptied, Ring.setCell]
  | idle | held | ret => cases h
  | _ => cases hspan

theorem SupPc.failed_place {p : SupPc} {b : Bool} (h : p.failed b = some i) :
    (p.place = .call i (.flag true) ∧ b = true) ∨ p.place = .out := by
  cases p with
  | failClose r =>
    simp only [SupPc.failed, Option.ite_none_right_eq_some, Option.some.injEq] at h
    exact Or.inl ⟨by rw [← h.2]; rfl, h.1⟩
  | failMark | failFrames | failAbort | failStop => exact Or.inr rfl
  | _ => cases h

end Noted

section Noted

variable {c : Config} {s s' : Pool} {i k : Nat}

/-- What the thread of a worker has seen, it sees nothing else of in its own program. -/
theorem WorkerPc.next_emptied {m m' : Ctl} {l l' : Loc Nat Nat} {x : Choice} {k : Cmd} {p : WorkerPc}
    {sh sh' : Nat} (hfit : (p.place c i).Fits sh l) (hn : p.next c m i l x = some (m', .pop, k))
    (hk : k.apply sh l = some (sh', l')) : l'.emptied = false := by
  cases p with
  | loop =>
    simp only [WorkerPc.next, Option.some.injEq, Prod.mk.injEq] at hn
    obtain ⟨-, -, rfl⟩ := hn
    cases hk
    rw [show l = .idle from hfit]
    rfl
  | depth =>
    cases l <;> simp only [WorkerPc.next] at hn <;> grind [Cmd.apply, Loc.emptied]
  | pop =>
    cases l <;> simp only [WorkerPc.next] at hn <;>
      grind [Cmd.apply, Loc.emptied, ringPop]
  | _ => first | cases hn | (simp only [WorkerPc.next] at hn; grind)

theorem Round.head_failed (r : Round) (b : Bool) : (r.head c).failed b = none := by
  rw [Round.head]
  split <;> rfl

theorem Round.next_failed (r : Round) (b : Bool) : (r.next c).failed b = none := Round.head_failed _ b

theorem Ask.answer_failed (q : Ask) (v b : Bool) : (q.answer c v).failed b = none := by
  cases q <;> simp only [Ask.answer] <;> split <;> first | rfl | exact Round.next_failed _ _

theorem Round.inspect_failed (r : Round) (st : WState) (last : Nat) (b : Bool) :
    (r.inspect c st last).failed b = none := by
  simp only [Round.inspect]
  split
  · exact Round.next_failed _ _
  · repeat' split
    all_goals first | rfl | exact Round.next_failed _ _

/-- It is past the closing of a ring only by having been in it. -/
theorem SupPc.next_failed {p p' : SupPc} {m m' : Ctl} {ended : Agent → Bool} {l l' : Loc Nat Nat}
    {x : Choice} {k : Cmd} {sh sh' : Nat} (hfit : p.place.Fits sh l)
    (hn : p.next c m ended l x = some (m', p', k)) (hk : k.apply sh l = some (sh', l'))
    (hf : p'.failed l'.past = some i) : p.failed l.past = some i := by
  cases p with
  | failClose r =>
    simp only [SupPc.next, ringCall] at hn
    split at hn
    · cases hn
      cases hk
      cases hf
    · cases hn
      exact hf
    · cases hn
  | createFailJoined r =>
    obtain ⟨rfl, rfl, rfl⟩ := outcome_inj hn
    cases hk
    rw [show l = .idle from hfit] at hf
    cases hf
  | failMark r | failFrames r | failAbort r =>
    obtain ⟨rfl, rfl, rfl⟩ := outcome_inj hn
    exact hf
  | ask q =>
    obtain ⟨rfl, rfl, rfl⟩ := outcome_inj hn
    split at hf
    · cases hf
    · rw [Ask.answer_failed] at hf
      cases hf
  | askStop q =>
    obtain ⟨rfl, rfl, rfl⟩ := outcome_inj hn
    rw [Ask.answer_failed] at hf
    cases hf
  | now =>
    obtain ⟨rfl, rfl, rfl⟩ := outcome_inj hn
    rw [Round.head_failed] at hf
    cases hf
  | progress r st =>
    obtain ⟨rfl, rfl, rfl⟩ := outcome_inj hn
    rw [Round.inspect_failed] at hf
    cases hf
  | healthy r | quarAbort r | joinFailFrames r | restarted r | failStop r =>
    obtain ⟨rfl, rfl, rfl⟩ := outcome_inj hn
    rw [Round.next_failed] at hf
    cases hf
  | quarClose r | reclose r | postClose r | reopen r =>
    obtain ⟨-, rfl | rfl⟩ := ringCall_cases hn
    · cases hf
    · first | cases hf | (rw [Round.next_failed] at hf; cases hf)
  | stallDepth r last =>
    have hp' : p' = .stallDepth r last ∨ p' = .stallStop r last ∨ p' = r.next c := by
      cases l <;> simp only [SupPc.next] at hn <;> grind
    rcases hp' with rfl | rfl | rfl
    · cases hf
    · cases hf
    · rw [Round.next_failed] at hf
      cases hf
  | join r | create r =>
    cases x <;> simp only [SupPc.next] at hn <;> grind [SupPc.failed]
  | exitLock =>
    simp only [SupPc.next] at hn
    split at hn <;> cases hn
    cases hf
  | returned => cases hn
  | sliceClock r | graceState r last u | graceClock r last u | graceProgress r last u
  | afterExited r last | afterRunning r last | afterStop r last | afterProgress r last
  | joinedLoad r =>
    obtain ⟨rfl, rfl, rfl⟩ := outcome_inj hn
    split at hf <;> cases hf
  | _ =>
    obtain ⟨rfl, rfl, rfl⟩ := outcome_inj hn
    cases hf

theorem Pool.Noted.init (now : Nat) : (Pool.init c now).Noted where
  seen _ _ h := by cases h
  failed _ _ h hf := by cases h; cases hf

/-- **Step lemma.** -/
theorem Pool.Noted.step (h : s.Noted) (hs : Sound c s) {e : Label} (hst : s.step c e = some s') :
    s'.Noted := by
  have hseated := hs.seated
  -- parties that stand where they stood
  have hseen : ∀ i k, s'.thr (.worker i k) = s.thr (.worker i k) →
      (s'.thr (.worker i k)).pc = .worker .pop → (s'.thr (.worker i k)).loc.emptied = true →
      (s'.ring i).closed = true := by
    intro i k hthr hp hl
    rw [hthr] at hp hl
    refine (hseated.step_closed hst (h.seen i k hp hl)).resolve_right ?_
    rintro ⟨r, hsup, hr⟩
    exact hs.not_reopened hp hsup hr
  have hfailed : ∀ p i, s'.thr .sup = s.thr .sup → (s'.thr .sup).pc = .sup p →
      p.failed (s'.thr .sup).loc.past = some i → (s'.ring i).closed = true := by
    intro p i hthr hp hf
    rw [hthr] at hp hf
    refine (hseated.step_closed hst (h.failed p i hp hf)).resolve_right ?_
    rintro ⟨r, hsup, -⟩
    rw [hp, Pc.sup.injEq] at hsup
    subst hsup
    cases hf
  cases Pool.step_act hseated hst with
  | tick t => exact ⟨fun i k ↦ hseen i k rfl, fun p i ↦ hfailed p i rfl⟩
  | access a x spurious r l hact hstep =>
    refine ⟨fun i k hp hl ↦ ?_, fun p i hp hf ↦ ?_⟩
    · by_cases ha : Agent.worker i k = a
      · subst ha
        rw [Pool.accessed_pc] at hp
        rw [Pool.accessed_self] at hl
        have hfit := hseated.fits (.worker i k)
        rw [hp] at hfit
        rcases hfit with ⟨hidle, -⟩ | ⟨hsh, hspan⟩
        · rw [hidle] at hact
          cases hact
        · obtain ⟨hkeep, hseen'⟩ := Ring.step_emptied hspan hstep hl
          have hring := Pool.accessed_ring_self (c := c) (s := s) (a := .worker i k) (r := r) (l := l)
          rw [hsh] at hring hkeep hseen'
          rw [hring, hkeep]
          exact hseen'.elim id (h.seen i k hp)
      · exact hseen i k (Pool.accessed_of_ne ha) hp hl
    · by_cases ha : Agent.sup = a
      · subst ha
        rw [Pool.accessed_pc] at hp
        rw [Pool.accessed_self] at hf
        -- it is in the call that closes the ring, as it has nothing else to do with rings
        have hplace : (s.thr .sup).pc.place c .sup = .call i (.flag true) := by
          rw [hp]
          refine (SupPc.failed_place hf).elim (·.1) fun hout ↦ ?_
          have hfit := hseated.fits .sup
          rw [hp, Pc.place, hout] at hfit
          rw [show (s.thr .sup).loc = .idle from hfit] at hact
          cases hact
        rcases hseated.closes hplace hact hstep with hpast | ⟨rfl, hclosed⟩
        · have hf' : p.failed (s.thr .sup).loc.past = some i := by
            rw [Ring.step_past hstep hpast, ← hpast] at hf
            exact hf
          refine (hseated.step_closed hst (h.failed p i hp hf')).resolve_right ?_
          rintro ⟨r, hsup, -⟩
          rw [hp, Pc.sup.injEq] at hsup
          subst hsup
          cases hf
        · rw [Pool.accessed_ring_self]
          exact hclosed
      · exact hfailed p i (Pool.accessed_of_ne ha) hp hf
  | worker i j x hi hj hp hn hk =>
    refine ⟨fun i' k hp' hl ↦ ?_, fun p i ↦ hfailed p i (Pool.moved_of_ne (by simp))⟩
    by_cases ha : Agent.worker i' k = .worker i j
    · cases ha
      rw [Pool.moved_self, Pc.worker.injEq] at hp'
      subst hp'
      have hfit := hseated.fits (.worker i j)
      rw [hp] at hfit
      rw [Pool.moved_self, WorkerPc.next_emptied hfit hn hk] at hl
      cases hl
    · exact hseen i' k (Pool.moved_of_ne ha) hp' hl
  | sup x he hp hn hk =>
    refine ⟨fun i k ↦ hseen i k (Pool.moved_of_ne (by simp)), fun p' i hp' hf ↦ ?_⟩
    rw [Pool.moved_self, Pc.sup.injEq] at hp'
    subst hp'
    rw [Pool.moved_self] at hf
    have hfit := hseated.fits .sup
    rw [hp] at hfit
    exact h.failed _ i hp (SupPc.next_failed hfit hn hk hf)
  | _ =>
    exact ⟨fun i k ↦ hseen i k (Pool.moved_of_ne (by simp)), fun p i ↦ hfailed p i (Pool.moved_of_ne (by simp))⟩

end Noted

/-! ## Winding down -/

/-- Where a supervisor that has been told to stop can be. -/
def SupPc.winds : SupPc → Bool
  | .ask .outer | .ask (.worker _) | .ask (.slice _) | .askStop .outer | .askStop (.worker _)
  | .askStop (.slice _) => true
  | p => p.left

section Winding

variable {c : Config} {s s' : Pool} {m m' : Ctl} {l l' : Loc Nat Nat} {x : Choice} {k : Cmd}

theorem Round.next_winds (r : Round) : (r.next c).winds = true := by
  simp only [Round.next, Round.head]
  split <;> rfl

/-- It goes from call site to call site of `life_is_running`, and out. -/
theorem SupPc.next_winds {ended : Agent → Bool} {p p' : SupPc} (hp : p.winds = true)
    (hstop : m.supervisorStop = true) (hn : p.next c m ended l x = some (m', p', k)) :
    p'.winds = true ∧ m'.w = m.w := by
  cases p with
  | ask q =>
    obtain ⟨rfl, rfl, rfl⟩ := outcome_inj hn
    refine ⟨?_, rfl⟩
    cases q <;> first | (split <;> rfl) | cases hp
  | askStop q =>
    simp only [SupPc.next, hstop] at hn
    obtain ⟨rfl, rfl, rfl⟩ := outcome_inj hn
    refine ⟨?_, rfl⟩
    cases q <;> first | rfl | cases hp
  | exitLock =>
    simp only [SupPc.next] at hn
    split at hn <;> cases hn
    exact ⟨rfl, rfl⟩
  | exitPhase | exitAlive | exitBroadcast | exitUnlock =>
    obtain ⟨rfl, rfl, rfl⟩ := outcome_inj hn
    exact ⟨rfl, rfl⟩
  | returned => cases hn
  | _ => cases hp

/-- The supervisor stops itself only when a restart has failed. -/
theorem SupPc.next_stop {ended : Agent → Bool} {p p' : SupPc}
    (hn : p.next c m ended l x = some (m', p', k)) : m'.supervisorStop = m.supervisorStop ∨
      ∃ r, p = .failStop r ∧ m'.w = m.w ∧ p' = r.next c := by
  cases p with
  | failStop r =>
    obtain ⟨rfl, rfl, rfl⟩ := outcome_inj hn
    exact Or.inr ⟨r, rfl, rfl, rfl⟩
  | stallDepth r last =>
    left
    cases l <;> simp only [SupPc.next] at hn <;> grind
  | quarClose r | reclose r | postClose r | failClose r | reopen r =>
    exact Or.inl (by rw [(ringCall_cases hn).1])
  | join r | create r =>
    left
    cases x <;> simp only [SupPc.next] at hn <;> grind [Ctl.join, Ctl.setW]
  | exitLock =>
    simp only [SupPc.next] at hn
    split at hn <;> cases hn
    exact Or.inl rfl
  | returned => cases hn
  | _ =>
    obtain ⟨rfl, rfl, rfl⟩ := outcome_inj hn
    exact Or.inl rfl

theorem Round.head_left (r : Round) : (r.head c).left = false := by
  rw [Round.head]
  split <;> rfl

theorem Round.next_left (r : Round) : (r.next c).left = false := Round.head_left _

theorem Ask.answer_running (q : Ask) : (q.answer c true).left = false := by
  cases q <;> rfl

theorem Round.inspect_left (r : Round) (st : WState) (last : Nat) :
    (r.inspect c st last).left = false := by
  simp only [Round.inspect]
  repeat' split
  all_goals first | rfl | exact Round.next_left _

/-- It leaves when it is told to, or the pool no longer runs. -/
theorem SupPc.next_left {ended : Agent → Bool} {p p' : SupPc}
    (hn : p.next c m ended l x = some (m', p', k)) (hleft : p'.left = true) :
    p.left = true ∨ m.lifecycle ≠ .running ∨ m.supervisorStop = true := by
  cases p with
  | ask q =>
    obtain ⟨rfl, rfl, rfl⟩ := outcome_inj hn
    split at hleft
    · cases hleft
    · rename_i hlife
      exact Or.inr (Or.inl hlife)
  | askStop q =>
    obtain ⟨rfl, rfl, rfl⟩ := outcome_inj hn
    cases hstop : m.supervisorStop with
    | true => exact Or.inr (Or.inr rfl)
    | false =>
      rw [hstop, Bool.not_false, Ask.answer_running] at hleft
      cases hleft
  | now =>
    obtain ⟨rfl, rfl, rfl⟩ := outcome_inj hn
    rw [Round.head_left] at hleft
    cases hleft
  | progress r st =>
    obtain ⟨rfl, rfl, rfl⟩ := outcome_inj hn
    rw [Round.inspect_left] at hleft
    cases hleft
  | healthy r | quarAbort r | joinFailFrames r | restarted r | failStop r =>
    obtain ⟨rfl, rfl, rfl⟩ := outcome_inj hn
    rw [Round.next_left] at hleft
    cases hleft
  | quarClose r | reclose r | postClose r | reopen r | failClose r =>
    obtain ⟨-, rfl | rfl⟩ := ringCall_cases hn
    · cases hleft
    · first | cases hleft | (rw [Round.next_left] at hleft; cases hleft)
  | stallDepth r last =>
    have hp' : p' = .stallDepth r last ∨ p' = .stallStop r last ∨ p' = r.next c := by
      cases l <;> simp only [SupPc.next] at hn <;> grind
    rcases hp' with rfl | rfl | rfl
    · cases hleft
    · cases hleft
    · rw [Round.next_left] at hleft
      cases hleft
  | join r | create r =>
    cases x <;> simp only [SupPc.next] at hn <;> grind [SupPc.left]
  | exitPhase | exitAlive | exitLock | exitBroadcast | exitUnlock | returned => exact Or.inl rfl
  | sliceClock r | graceState r last u | graceClock r last u | graceProgress r last u
  | afterExited r last | afterRunning r last | afterStop r last | afterProgress r last
  | joinedLoad r =>
    obtain ⟨rfl, rfl, rfl⟩ := outcome_inj hn
    split at hleft <;> cases hleft
  | _ =>
    obtain ⟨rfl, rfl, rfl⟩ := outcome_inj hn
    cases hleft

/-- A shutdown call that does not execute leaves the workers alone. -/
theorem ShutPc.next_bystander {active : Int} {me : Agent} {p p' : ShutPc} (hp : p.executes = false)
    (hn : p.next c m active me l x = some (m', p', k)) :
    m'.w = m.w ∧ m'.supervisorStop = m.supervisorStop := by
  cases p with
  | cas life | waitLife | waitBlocked ticket =>
    simp only [ShutPc.next] at hn
    split at hn <;> cases hn <;> exact ⟨rfl, rfl⟩
  | waitLock | waitRelock =>
    simp only [ShutPc.next, Option.map_eq_some_iff, Prod.mk.injEq] at hn
    obtain ⟨m₁, hm, rfl, -, -⟩ := hn
    rw [(Ctl.lockLife_eq hm).2]
    exact ⟨rfl, rfl⟩
  | done rc => cases hn
  | start | obsAborts | obsQuarantined | waitInc | waitAborts | waitQuarantined | waitDec v
  | waitBroadcast v | waitUnlock v =>
    obtain ⟨rfl, rfl, rfl⟩ := outcome_inj hn
    exact ⟨rfl, rfl⟩
  | _ => cases hp

end Winding

/-! ## A thread in its loop -/

section Loops

variable {c : Config} {s s' : Pool} {i : Nat}

theorem Ring.step_dequeue {cap : Nat} {a : Agent} {spurious : Bool} {r r' : Ring Nat Agent Nat}
    {l l' : Loc Nat Nat} (h : r.step cap a spurious l = some (r', l')) :
    r'.dequeuePos = r.dequeuePos ∨ ∃ sc, l.popKind = some sc := by
  cases l with
  | popTake sc spin pos => exact Or.inr ⟨sc, rfl⟩
  | wake w v =>
    left
    cases w <;> simp only [Ring.step, Ring.wakeStep] at h <;> grind
  | wait q w k =>
    left
    cases w <;> simp only [Ring.step, Ring.waitStep] at h <;> grind
  | _ =>
    left
    simp only [Ring.step, Ring.setCell] at h
    grind

/-- While no shutdown executes, a ring is emptied by its own worker only. -/
theorem Sound.dequeue_eq (hs : Sound c s) (hexec : s.ctl.executor = none) {a : Agent}
    {spurious : Bool} {r : Ring Nat Agent Nat} {l : Loc Nat Nat}
    (hstep : (s.ring (s.thr a).sh).step c.capacity.val a spurious (s.thr a).loc = some (r, l))
    (hpop : (s.thr (s.ctl.handle i)).pc ≠ .worker .pop) :
    ((s.accessed c a r l).ring i).dequeuePos = (s.ring i).dequeuePos := by
  by_cases hi : i = (s.thr a).sh
  · subst hi
    rw [Pool.accessed_ring_self]
    refine (Ring.step_dequeue hstep).resolve_right ?_
    rintro ⟨sc, hsc⟩
    have hloc : (s.shard (s.thr a).sh).loc a = (s.thr a).loc := if_pos rfl
    rcases hs.pops_cases (hs.seated.pops_of_popKind (hloc ▸ hsc)) with ⟨ha, hp⟩ | ⟨he, -⟩
    · exact hpop (show (s.thr (s.ctl.handle (s.thr a).sh)).pc = _ by
        rw [show s.ctl.handle (s.thr a).sh = a from ha.symm, hp])
    · rw [hexec] at he
      cases he
  · rw [Pool.accessed_ring_of_ne hi]

theorem Loc.finds_mono {r r' : Ring Nat Agent Nat} (hd : r'.dequeuePos = r.dequeuePos)
    (he : r.enqueuePos ≤ r'.enqueuePos) {l : Loc Nat Nat} (h : l.finds r = true) :
    l.finds r' = true := by
  cases l with
  | depthDeq enq => simpa [Loc.finds, hd] using h
  | ret v => cases v <;> grind [Loc.finds]
  | _ =>
    simp only [Loc.finds, decide_eq_true_eq] at h ⊢
    omega

/-- What it finds, `awp_ring_depth` reports. -/
theorem Ring.step_finds {cap : Capacity} {a : Agent} {spurious : Bool} {r r' : Ring Nat Agent Nat}
    {l l' : Loc Nat Nat} (hspan : RingFn.depth.spans l = true)
    (h : r.step cap.val a spurious l = some (r', l')) (hf : l.finds r = true) :
    l'.finds r' = true := by
  cases l with
  | depthEnq =>
    cases h
    exact hf
  | depthDeq enq =>
    cases h
    have hcap := cap.pos
    simp only [Loc.finds, decide_eq_true_eq, depth_nat] at hf ⊢
    grind
  | ret v => cases h
  | _ => cases hspan

theorem Thread.loops_of_ne {t t' : Thread} {r r' : Ring Nat Agent Nat} (hpc : t'.pc = t.pc)
    (hne : t.pc ≠ .worker .depth) : t'.loops r' = t.loops r := by
  simp only [Thread.loops, hpc]
  split <;> simp_all

/-- The others leave a thread in its loop, and its own accesses do. -/
theorem Sound.loops_access (hs : Sound c s) (hexec : s.ctl.executor = none) {a : Agent} {x : Choice}
    {spurious : Bool} {r : Ring Nat Agent Nat} {l : Loc Nat Nat}
    (hact : (s.thr a).loc.active = true)
    (hstep : (s.ring (s.thr a).sh).step c.capacity.val a spurious (s.thr a).loc = some (r, l))
    (hst : s.step c (.step a x) = some (s.accessed c a r l))
    (hloop : (s.thr (s.ctl.handle i)).loops (s.ring i) = true) :
    ((s.accessed c a r l).thr (s.ctl.handle i)).loops ((s.accessed c a r l).ring i) = true := by
  have hpc := Pool.accessed_pc (c := c) (s := s) (a := a) (b := s.ctl.handle i) (r := r) (l := l)
  by_cases hdepth : (s.thr (s.ctl.handle i)).pc = .worker .depth
  · have hd := hs.dequeue_eq hexec hstep (i := i) (by rw [hdepth]; nofun)
    have he := hs.enqueue_mono hst i
    simp only [Thread.loops, hpc, hdepth] at hloop ⊢
    by_cases ha : s.ctl.handle i = a
    · -- its own access, which is one of `awp_ring_depth` on its ring
      have hfit := hs.seated.fits (s.ctl.handle i)
      rw [hdepth] at hfit
      subst ha
      rcases hfit with ⟨hidle, -⟩ | ⟨hsh, hspan⟩
      · rw [hidle] at hact
        cases hact
      · rw [Pool.accessed_self]
        have hring := Pool.accessed_ring_self (c := c) (s := s) (a := s.ctl.handle i) (r := r) (l := l)
        rw [show (s.thr (s.ctl.handle i)).sh = i from hsh] at hring hstep
        rw [hring]
        exact Ring.step_finds hspan hstep hloop
    · rw [Pool.accessed_of_ne ha]
      exact Loc.finds_mono hd he hloop
  · rw [Thread.loops_of_ne hpc hdepth]
    exact hloop

/-- Unless it is asked to stop, or has found its ring closed, the thread goes on. -/
theorem WorkerPc.next_loops {m m' : Ctl} {l l' : Loc Nat Nat} {x : Choice} {k : Cmd}
    {p p' : WorkerPc} {sh sh' : Nat} {r : Ring Nat Agent Nat}
    (hloop : (⟨.worker p, sh, l⟩ : Thread).loops r = true) (hstop : (m.w i).stop = false)
    (hn : p.next c m i l x = some (m', p', k)) (hk : k.apply sh l = some (sh', l')) :
    (⟨.worker p', sh', l'⟩ : Thread).loops r = true ∨ (p = .pop ∧ l.emptied = true) := by
  cases p with
  | loop =>
    simp only [WorkerPc.next, hstop] at hn
    obtain ⟨rfl, rfl, rfl⟩ := outcome_inj hn
    exact Or.inl rfl
  | depth =>
    left
    cases l with
    | idle =>
      obtain ⟨rfl, rfl, rfl⟩ := outcome_inj hn
      obtain ⟨-, -, rfl⟩ := Cmd.apply_call hk
      exact hloop
    | ret v =>
      cases v <;> simp only [WorkerPc.next, reduceCtorEq] at hn
      rename_i n
      obtain ⟨rfl, rfl, rfl⟩ := outcome_inj hn
      have hne : n ≠ 0 := by simpa [Thread.loops, Loc.finds] using hloop
      rw [if_neg hne]
      rfl
    | _ => cases hn
  | pop =>
    cases l with
    | idle =>
      obtain ⟨rfl, rfl, rfl⟩ := outcome_inj hn
      exact Or.inl rfl
    | ret v =>
      cases v with
      | rc n => exact Or.inr ⟨rfl, rfl⟩
      | popped pos out =>
        cases out <;> cases hn <;> exact Or.inl rfl
      | _ => cases hn
    | _ => cases hn
  | exit | returned => cases hloop
  | process p slot n =>
    left
    cases n <;> cases x <;> cases hn <;> first | rfl | (split <;> rfl)
  | onError p slot rc n =>
    left
    cases n <;> cases x <;> cases hn <;> rfl
  | countPoolError p slot rc =>
    obtain ⟨rfl, rfl, rfl⟩ := outcome_inj hn
    left
    split <;> rfl
  | _ =>
    obtain ⟨rfl, rfl, rfl⟩ := outcome_inj hn
    exact Or.inl rfl

end Loops

/-! ## The supervisor leaves -/

structure Pool.Wound (c : Config) (s : Pool) : Prop where
  left : s.ctl.lifecycle = .running → ∀ p, (s.thr .sup).pc = .sup p → p.left = true →
    s.ctl.supervisorStop = true
  winds : s.ctl.lifecycle = .running → s.ctl.supervisorStop = true →
    ∃ p, (s.thr .sup).pc = .sup p ∧ p.winds = true
  stays : s.ctl.lifecycle = .running → s.ctl.supervisorStop = true → ∀ i < c.nWorkers, s.Stays i

section Wound

variable {c : Config} {s s' : Pool}

theorem Pool.Stays.of_eq {i : Nat} (h : s.Stays i) (hring : s'.ring i = s.ring i)
    (hw : s'.ctl.w i = s.ctl.w i) (hthr : s'.thr (s.ctl.handle i) = s.thr (s.ctl.handle i)) :
    s'.Stays i := by
  rw [Pool.Stays, Ctl.handle, hring, hw, ← Ctl.handle, hthr]
  exact h

/-- The worker's own thread moves, or one that has been replaced. -/
theorem Pool.Stays.own {i j : Nat} (h : s.Stays i) (hnoted : s.Noted) {p p' : WorkerPc} {m : Ctl}
    {x : Choice} {k : Cmd} {sh : Nat} {l : Loc Nat Nat} (hp : (s.thr (.worker i j)).pc = .worker p)
    (hn : p.next c s.ctl i (s.thr (.worker i j)).loc x = some (m, p', k))
    (hk : k.apply (s.thr (.worker i j)).sh (s.thr (.worker i j)).loc = some (sh, l)) :
    (s.moved m s.dat (.worker i j) (.worker p') sh l).Stays i := by
  have hown := (WorkerPc.next_frame hn).2
  have hask := congrArg Worker.stop hown
  have hspawned := congrArg Worker.spawned hown
  have hhandle : m.handle i = s.ctl.handle i := by rw [Ctl.handle, Ctl.handle, hspawned]
  rcases h with hclosed | ⟨hnot, hloop⟩
  · exact Or.inl hclosed
  · by_cases hcur : s.ctl.handle i = .worker i j
    · rw [hcur, show s.thr (.worker i j) = ⟨.worker p, _, _⟩ by rw [← hp]] at hloop
      rcases WorkerPc.next_loops hloop hnot hn hk with hloop' | ⟨rfl, hemptied⟩
      · refine Or.inr ⟨hask.trans hnot, ?_⟩
        rw [Pool.moved_ctl, hhandle, hcur, Pool.moved_self]
        exact hloop'
      · exact Or.inl (hnoted.seen i j hp hemptied)
    · refine Or.inr ⟨hask.trans hnot, ?_⟩
      rw [Pool.moved_ctl, hhandle, Pool.moved_of_ne hcur]
      exact hloop

/-- Somebody moves who leaves the workers' records and the supervisor alone. -/
theorem Pool.Wound.bystander (h : s.Wound c) {m : Ctl} {d : Dat} {a : Agent} {pc : Pc} {sh : Nat}
    {l : Loc Nat Nat} (hlife : m.lifecycle = .running → s.ctl.lifecycle = .running)
    (hw : s.ctl.lifecycle = .running → m.w = s.ctl.w ∧ m.supervisorStop = s.ctl.supervisorStop)
    (hsup : a ≠ .sup) (hworker : ∀ i, s.ctl.handle i ≠ a) : (s.moved m d a pc sh l).Wound c where
  left hl p hp hleft := by
    rw [Pool.moved_of_ne hsup.symm] at hp
    exact (hw (hlife hl)).2.trans (h.left (hlife hl) p hp hleft)
  winds hl hstop := by
    rw [Pool.moved_of_ne hsup.symm]
    exact h.winds (hlife hl) ((hw (hlife hl)).2.symm.trans hstop)
  stays hl hstop i hi :=
    (h.stays (hlife hl) ((hw (hlife hl)).2.symm.trans hstop) i hi).of_eq rfl
      (congrFun (hw (hlife hl)).1 i) (Pool.moved_of_ne (hworker i))

theorem Pool.Wound.init (now : Nat) : (Pool.init c now).Wound c where
  left _ p hp hleft := by
    cases hp
    cases hleft
  winds _ hstop := by cases hstop
  stays _ hstop := by cases hstop

/-- While the pool runs, nobody executes a shutdown. -/
theorem Sound.not_executing (hs : Sound c s) (hrun : s.ctl.lifecycle = .running) {n : Nat}
    {q : ShutPc} (hq : (s.thr (.api n)).pc.shut? = some q) : q.executes = false := by
  cases he : q.executes with
  | false => rfl
  | true =>
    have hexec := hs.executes n q hq he
    rw [hs.custody.running (Or.inr hrun)] at hexec
    cases hexec

/-- **Step lemma.** -/
theorem Pool.Wound.step (h : s.Wound c) (hnoted : s.Noted) (hs : Sound c s) {e : Label}
    (he : Careful c s e) (hst : s.step c e = some s') : s'.Wound c := by
  have hhandle : ∀ i n, s.ctl.handle i ≠ .api n := fun _ _ ↦ by simp [Ctl.handle]
  have hlife := Pool.step_running hs.seated hst
  cases Pool.step_act hs.seated hst with
  | tick t =>
    exact ⟨h.left, h.winds, fun hl hstop i hi ↦ (h.stays hl hstop i hi).of_eq rfl rfl rfl⟩
  | call n | shutdown n | destroyed n | api n =>
    exact h.bystander id (fun _ ↦ ⟨rfl, rfl⟩) (by simp) (hhandle · n)
  | access a x spurious r l hact hstep =>
    refine ⟨fun hl p hp ↦ h.left hl p ((Pool.accessed_pc).symm.trans hp), fun hl hstop ↦ ?_,
      fun hl hstop i hi ↦ ?_⟩
    · obtain ⟨p, hp, hwinds⟩ := h.winds hl hstop
      exact ⟨p, (Pool.accessed_pc).trans hp, hwinds⟩
    · rcases h.stays hl hstop i hi with hclosed | ⟨hask, hloop⟩
      · refine Or.inl ((hs.seated.step_closed hst hclosed).resolve_right ?_)
        rintro ⟨r, hr, -⟩
        obtain ⟨p, hp, hwinds⟩ := h.winds hl hstop
        rw [hr, Pc.sup.injEq] at hp
        subst hp
        cases hwinds
      · exact Or.inr ⟨hask, hs.loops_access (hs.custody.running (Or.inr hl)) hact hstep hst hloop⟩
  | shut n x hw hp hn hk =>
    refine h.bystander hlife (fun hl ↦ ShutPc.next_bystander ?_ hn) (by simp) (hhandle · n)
    exact hs.not_executing hl (by rw [hp, hw.shut?])
  | destroy n x hp hn hfrom hto hframe hk =>
    refine h.bystander hlife (fun _ ↦ ?_) (by simp) (hhandle · n)
    have hw := congrArg Ctl.w hframe
    have hstop := congrArg Ctl.supervisorStop hframe
    exact ⟨hw, hstop⟩
  | helper j x hj hp hn hk =>
    refine h.bystander hlife (fun _ ↦ ?_) (by simp) fun _ ↦ by simp [Ctl.handle]
    have hw := congrArg Ctl.w (HelperPc.next_frame hn)
    have hstop := congrArg Ctl.supervisorStop (HelperPc.next_frame hn)
    exact ⟨hw, hstop⟩
  | worker i j x hi hj hp hn hk =>
    rename_i p p' m k sh l
    obtain ⟨⟨hm, hothers⟩, hown⟩ := WorkerPc.next_frame hn
    have hstop' := congrArg Ctl.supervisorStop hm
    have hsup : (s.moved m s.dat (.worker i j) (.worker p') sh l).thr .sup = s.thr .sup :=
      Pool.moved_of_ne (by simp)
    refine ⟨fun hl p hp hleft ↦ ?_, fun hl hstop ↦ ?_, fun hl hstop i' hi' ↦ ?_⟩
    · rw [hsup] at hp
      exact hstop'.trans (h.left (hlife hl) p hp hleft)
    · rw [hsup]
      exact h.winds (hlife hl) (hstop'.symm.trans hstop)
    · have hstay := h.stays (hlife hl) (hstop'.symm.trans hstop) i' hi'
      by_cases hii : i' = i
      · subst hii
        exact hstay.own hnoted hp hn hk
      · exact hstay.of_eq rfl (hothers i' hii) (Pool.moved_of_ne (by simp [Ctl.handle, hii]))
  | sup x hen hp hn hk =>
    rename_i p p' m k sh l
    have hpc : ((s.moved m s.dat .sup (.sup p') sh l).thr .sup).pc = .sup p' := by
      rw [Pool.moved_self]
    -- the workers' records and threads are left alone from the failed restart on
    have hkeep : ∀ i, m.w = s.ctl.w → s.Stays i →
        (s.moved m s.dat .sup (.sup p') sh l).Stays i := fun i hw hstay ↦
      hstay.of_eq rfl (congrFun hw i) (Pool.moved_of_ne (by simp [Ctl.handle]))
    have hthen : m.lifecycle = .running → m.supervisorStop = true →
        p'.winds = true ∧ ∀ i < c.nWorkers, (s.moved m s.dat .sup (.sup p') sh l).Stays i := by
      intro hl hstop
      rcases SupPc.next_stop hn with hsame | ⟨r, rfl, hw, rfl⟩
      · have hset := hsame.symm.trans hstop
        obtain ⟨q, hq, hwinds⟩ := h.winds (hlife hl) hset
        rw [hp, Pc.sup.injEq] at hq
        subst hq
        obtain ⟨hwinds', hw⟩ := SupPc.next_winds hwinds hset hn
        exact ⟨hwinds', fun i hi ↦ hkeep i hw (h.stays (hlife hl) hset i hi)⟩
      · refine ⟨Round.next_winds r, fun i hi ↦ hkeep i hw ?_⟩
        by_cases hir : i = r.i
        · exact Or.inl (hnoted.failed _ i hp (by rw [hir]; rfl))
        · simp only [Careful, hp] at he
          exact he (hlife hl) i hi hir
    refine ⟨fun hl q hq hleft ↦ ?_, fun hl hstop ↦ ⟨p', hpc, (hthen hl hstop).1⟩,
      fun hl hstop ↦ (hthen hl hstop).2⟩
    rw [hpc, Pc.sup.injEq] at hq
    subst hq
    refine (Pool.step_onward hs.seated hst).stop ?_
    rcases SupPc.next_left hn hleft with hleft | hnot | hstop
    · exact h.left (hlife hl) p hp hleft
    · exact absurd (hlife hl) hnot
    · exact hstop

theorem Pool.Noted.run {ok : Pool → Label → Prop} {now : Nat}
    (hrun : Steps (Pool.step c) ok (Pool.init c now) s) : s.Noted :=
  hrun.invariant_under (P := Pool.Noted) (fun _ ht ↦ Sound.run ht)
    (fun _ _ _ hs _ h _ hst ↦ h.step hs hst) (.init now)

theorem Pool.Wound.run {now : Nat} (hrun : Steps (Pool.step c) (Careful c) (Pool.init c now) s) :
    s.Wound c :=
  hrun.invariant_under (P := Pool.Wound c) (fun _ ht ↦ And.intro (Sound.run ht) (Pool.Noted.run ht))
    (fun _ _ _ hs _ h he hst ↦ h.step hs.2 hs.1 he hst) (.init now)

/-- **No stranded shard.** In every run in which a failed restart ends the supervisor only where all
other workers stay in their loops or have their rings closed. -/
theorem no_stranded_shard {now : Nat}
    (hrun : Steps (Pool.step c) (Careful c) (Pool.init c now) s) : s.NoStranded c := by
  have hs := Pool.Wound.run hrun
  rintro hlife - ⟨p, hp, hleft⟩ i hi hret
  refine (hs.stays hlife (hs.left hlife p hp hleft) i hi).resolve_right ?_
  rintro ⟨-, hloop⟩
  simp only [Thread.loops, hret] at hloop
  cases hloop

end Wound

/-! Two workers stop when they are asked to.  The first cannot be joined; the second is joined, and
then its new thread cannot be created. -/

/-- Party `n` submits a bare frame by its key. -/
def keyeds (n : Nat) (key : UInt64) : List Label :=
  .call n true (.keyed false key (.bare 0)) :: turns (.api n) 26

/-- Worker `i` has one frame, and empties its ring when it has been asked to stop. -/
def emptiesAndExits (i : Nat) : List Label :=
  turns (.worker i 0) 16 ++ [.step (.worker i 0) (.rc 0)] ++ turns (.worker i 0) 8

/-- Two workers, which a supervisor restarts. -/
def Config.watchedPair : Config :=
  { Config.watched with nWorkers := 2, broadcast_lt := by decide }

def strandedFirst : List Label :=
  keyeds 0 0 ++ keyeds 1 1 ++ turns (.worker 0 0) 2 ++ turns (.worker 1 0) 2 ++ [.tick 2000000] ++
    turns .sup 15 ++ emptiesAndExits 0 ++ turns .sup 7 ++ [.step .sup (.rc 11)] ++
    turns .sup 12 ++ emptiesAndExits 1 ++ turns .sup 25 ++ [.step .sup (.rc 11)] ++ turns .sup 16

theorem first_stranded : ∃ s, Steps (Pool.step .watchedPair) anyStep (Pool.init .watchedPair 0) s ∧
    ¬ s.NoStranded .watchedPair := by
  have hrun : (exec (Pool.step .watchedPair) (Pool.init .watchedPair 0) strandedFirst).any (fun s ↦
      decide (s.ctl.lifecycle = .running ∧ s.ctl.quarantined = true ∧
        (s.thr .sup).pc = .sup .exitPhase ∧
        (s.thr (s.ctl.handle 0)).pc = .worker .returned ∧ (s.ring 0).closed = false)) = true := by
    decide +kernel
  obtain ⟨s, hs, hP⟩ := exec_any hrun
  obtain ⟨hlife, hquar, hsup, hret, hopen⟩ := of_decide_eq_true hP
  refine ⟨s, exec_steps hs, fun h ↦ ?_⟩
  have hclosed := h hlife hquar ⟨_, hsup, rfl⟩ 0 (by decide) hret
  rw [hopen] at hclosed
  cases hclosed

/-- The second worker is joined, and no new thread can be created for it; the first sleeps in its
loop all the while. -/
def failedRestart : List Label :=
  keyeds 0 1 ++ turns (.worker 0 0) 8 ++ turns (.worker 1 0) 2 ++ [.tick 2000000] ++ turns .sup 23 ++
    emptiesAndExits 1 ++ turns .sup 25 ++ [.step .sup (.rc 11)] ++ turns .sup 16

theorem no_stranded_shard_failedRestart : ∃ s : Pool,
    (s.ctl.lifecycle = .running ∧ s.ctl.quarantined = true ∧ (s.thr .sup).pc = .sup .exitPhase ∧
      (s.thr (s.ctl.handle 1)).pc = .worker .returned ∧
      (s.thr (s.ctl.handle 0)).loops (s.ring 0) = true ∧ (s.ring 0).closed = false) ∧
    s.NoStranded .watchedPair := by
  have hrun : (exec (guarded (Pool.step .watchedPair) (Careful .watchedPair))
      (Pool.init .watchedPair 0) failedRestart).any (fun s ↦
      decide (s.ctl.lifecycle = .running ∧ s.ctl.quarantined = true ∧
        (s.thr .sup).pc = .sup .exitPhase ∧
        (s.thr (s.ctl.handle 1)).pc = .worker .returned ∧
        (s.thr (s.ctl.handle 0)).loops (s.ring 0) = true ∧ (s.ring 0).closed = false)) = true := by
    decide +kernel
  obtain ⟨s, hs, hP⟩ := exec_any hrun
  exact ⟨s, of_decide_eq_true hP, no_stranded_shard (exec_guarded_steps hs)⟩

end Awp
