import AsyncWorkerPool.Ring.Wakeup
import AsyncWorkerPool.Pool.Machine

/-!
# Shards — every worker's queue is a ring with its users

`Pool.shard s i` is ring `i` with the locations of all parties in it.  A step of the pool is a move
of at most one shard, so that what holds of a ring under every client holds of the queues, given
that one party at a time consumes.  `Fits` says at which ring locations a party can stand when its
own program is at a given place.
-/

open Foundation

namespace Awp

/-! ## The ring functions the pool calls -/

inductive RingFn where
  | claim
  | commit (pos : Nat)
  | waitSpace
  | pop (sc : Bool)
  | flag (closed : Bool)
  | depth
  deriving DecidableEq

/-- The locations of a call, from its first access to its result. -/
def RingFn.spans : RingFn → Loc Nat Nat → Bool
  | .claim, .enqClosed .claim _ | .claim, .enqPos .claim _ | .claim, .enqSeq .claim _ _
  | .claim, .enqCas .claim _ _ | .claim, .held _ => true
  | .claim, .ret (.rc n) => n = -1
  | .claim, .ret .slotFull | .claim, .ret .slotAhead | .claim, .ret .slotLost => true
  | .commit p, .held q | .commit p, .pubData false _ q | .commit p, .pubSeq false _ q => p = q
  | .commit _, .wake _ (.rc n) | .commit _, .ret (.rc n) => n = 0
  | .waitSpace, .wait .space _ .caller | .waitSpace, .ret .done => true
  | .pop sc, .popPos sc' _ | .pop sc, .popSeq sc' _ _ | .pop sc, .popTake sc' _ _
  | .pop sc, .popData sc' _ | .pop sc, .popClear sc' _ _ | .pop sc, .popStore sc' _ _
  | .pop sc, .popClosed sc' _ _ | .pop sc, .popAgain sc' _ _
  | .pop sc, .wait .data _ (.pop sc') => sc = sc'
  | .pop _, .wake _ (.popped _ _) | .pop _, .ret (.popped _ _) => true
  | .pop _, .ret (.rc n) => n = -1
  | .flag v, .setClosed v' | .flag v, .wake _ (.flag v') | .flag v, .ret (.flag v') => v = v'
  | .depth, .depthEnq | .depth, .depthDeq _ | .depth, .ret (.depth _) => true
  | _, _ => false

/-- A call stays inside its function until it returns. -/
theorem RingFn.spans_step {cap : Nat} {a : Agent} {spurious : Bool} {r r' : Ring Nat Agent Nat}
    {l l' : Loc Nat Nat} (f : RingFn) (hl : f.spans l = true)
    (h : r.step cap a spurious l = some (r', l')) : f.spans l' = true := by
  cases l with
  | wait q w k =>
    cases f <;> cases q <;> cases k <;> simp only [RingFn.spans, Bool.false_eq_true] at hl <;>
      cases w <;> simp only [Ring.step, Ring.waitStep] at h <;> grind [RingFn.spans, Resume.loc]
  | wake w v =>
    cases f <;> cases v <;> simp only [RingFn.spans, Bool.false_eq_true] at hl <;>
      cases w <;> simp only [Ring.step, Ring.wakeStep] at h <;> grind [RingFn.spans]
  | enqClosed k _ | enqPos k _ | enqSeq k _ _ | enqCas k _ _ =>
    cases k <;> cases f <;> simp only [RingFn.spans, Bool.false_eq_true] at hl
    simp only [Ring.step, Enq.ready, Enq.full, Enq.ahead, Enq.lost, Enq.reserved] at h
    grind [RingFn.spans]
  | popTake sc _ _ =>
    cases sc <;> cases f <;> simp only [RingFn.spans, Bool.false_eq_true] at hl <;>
      simp only [Ring.step] at h <;> grind [RingFn.spans]
  | pubData sp _ _ | pubSeq sp _ _ =>
    cases sp <;> cases f <;> simp only [RingFn.spans, Bool.false_eq_true] at hl
    simp only [Ring.step] at h
    grind [RingFn.spans]
  | _ =>
    cases f <;> simp only [RingFn.spans, Bool.false_eq_true] at hl <;>
      simp only [Ring.step] at h <;> grind [RingFn.spans]

/-- The first access; a commit starts from the slot its party holds. -/
def RingFn.entry (mode : RingMode) : RingFn → Loc Nat Nat
  | .claim => ringClaim
  | .commit pos => .held pos
  | .waitSpace => ringWaitSpace
  | .pop _ => ringPop mode
  | .flag closed => .setClosed closed
  | .depth => ringDepth

/-! ## Where a party stands in the rings -/

/-- What a party's own program has to do with the rings where it stands: nothing, it is about to
call a function or inside the call, or it holds a slot. -/
inductive Place where
  | out
  | call (i : Nat) (f : RingFn)
  | hold (i pos : Nat)
  deriving DecidableEq

/-- Places at which a party may be outside the ring functions, holding nothing. -/
def Place.quiet : Place → Bool
  | .out => true
  | .call _ (.commit _) => false
  | .call _ _ => true
  | .hold _ _ => false

def ApiPc.place : ApiPc → Place
  | .reserve j => .call j.sh .claim
  | .waitSpace j => .call j.sh .waitSpace
  | .publish j pos => .call j.sh (.commit pos)
  | .activate j pos | .fill j pos _ | .claimed j pos => .hold j.sh pos
  | _ => .out

def WorkerPc.place (c : Config) (i : Nat) : WorkerPc → Place
  | .depth => .call i .depth
  | .pop => .call i (.pop c.ringMode.singleConsumer)
  | _ => .out

def SupPc.place : SupPc → Place
  | .stallDepth r _ => .call r.i .depth
  | .quarClose r | .reclose r | .postClose r | .failClose r => .call r.i (.flag true)
  | .reopen r => .call r.i (.flag false)
  | _ => .out

def ShutPc.place (c : Config) : ShutPc → Place
  | .timeoutClose _ i | .closeAll _ i | .lateClose _ i =>
    if i < c.nWorkers then .call i (.flag true) else .out
  | .stopClose _ i => .call i (.flag true)
  | .drainPop _ i => .call i (.pop c.ringMode.singleConsumer)
  | _ => .out

def DestroyPc.place (c : Config) : DestroyPc → Place
  | .shut p => p.place c
  | _ => .out

def Pc.place (c : Config) (a : Agent) : Pc → Place
  | .api p => p.place
  | .shut p => p.place c
  | .destroy p => p.place c
  | .worker p =>
    match a with
    | .worker i _ => p.place c i
    | _ => .out
  | .sup p => p.place
  | .helper _ => .out

/-- The ring location fits the place. -/
def Place.Fits (sh : Nat) (l : Loc Nat Nat) : Place → Prop
  | .out => l = .idle
  | .call i f => (l = .idle ∧ (Place.call i f).quiet = true) ∨ (sh = i ∧ f.spans l = true)
  | .hold i pos => sh = i ∧ l = .held pos

/-- What a step outside the ring functions does to the place of its party. -/
inductive Place.Turns (mode : RingMode) : Place → Loc Nat Nat → Cmd → Place → Prop where
  | work {P' l} (h : P'.quiet = true) : Turns mode .out l .stay P'
  | enter {i f l} (hq : (Place.call i f).quiet = true) (h : l = f.entry mode) :
    Turns mode (.call i f) .idle (.call i l) (.call i f)
  | leave {i f v P'} (h : P'.quiet = true) : Turns mode (.call i f) (.ret v) .take P'
  | reserved {i pos} : Turns mode (.call i .claim) (.held pos) .stay (.hold i pos)
  | hold {i pos l} : Turns mode (.hold i pos) l .stay (.hold i pos)
  | publish {i pos l} : Turns mode (.hold i pos) l .stay (.call i (.commit pos))
  | commit {i pos q frame} :
    Turns mode (.call i (.commit pos)) (.held q) (.commit frame) (.call i (.commit pos))

/-! ## Every step of a program is a turn -/

section Turns

variable {c : Config} {l : Loc Nat Nat} {x : Choice} {k : Cmd}

theorem Job.reject_place (j : Job) (rc : Int) : (j.reject rc).place = .out := by
  rw [Job.reject]
  cases j.kind <;> rfl

theorem Job.again_quiet (j : Job) {loop : Job → ApiPc} (h : ∀ j, (loop j).place.quiet = true) :
    (j.again loop).place.quiet = true := by
  rw [Job.again]
  split
  · exact h _
  · rfl

theorem Job.refused_quiet (j : Job) (v : Ret Nat Nat) : (j.refused v).place.quiet = true := by
  simp only [Job.refused]
  cases j.kind <;> cases v <;> first | rfl | exact j.again_quiet fun _ ↦ rfl

theorem Job.return_quiet (j : Job) (rc : Int) (slot : Option (Nat × Nat)) :
    (j.return rc slot).place.quiet = true := by
  rw [Job.return]
  cases j.kind with
  | keyed a =>
    dsimp only
    split
    · rfl
    · exact j.again_quiet fun _ ↦ rfl
  | submit a ns | claim => rfl

theorem Job.gate_quiet (j : Job) (m : Ctl) (g : Gate) :
    (if g.isOpen m then
      match g.next with
      | some g' => ApiPc.gate j g'
      | none => .reserve j
    else j.reject einval).place.quiet = true := by
  cases g.isOpen m with
  | true => cases g <;> rfl
  | false => simp [j.reject_place, Place.quiet]

theorem ApiPc.next_turns {m : Ctl} {d d' : Dat} {p p' : ApiPc}
    (h : p.next c m d l x = some (d', p', k)) :
    Place.Turns c.ringMode p.place l k p'.place := by
  cases p with
  | reserve j =>
    cases l <;> simp only [ApiPc.next] at h <;>
      grind [Place.Turns, ApiPc.place, RingFn.entry, Place.quiet, Job.refused_quiet]
  | waitSpace j =>
    cases l <;> simp only [ApiPc.next] at h <;>
      grind [Place.Turns, ApiPc.place, RingFn.entry, Place.quiet]
  | publish j pos =>
    cases l <;> simp only [ApiPc.next] at h <;> grind [Place.Turns, ApiPc.place, Place.quiet]
  | activate j pos | fill j pos ws | claimed j pos =>
    simp only [ApiPc.next] at h
    grind [Place.Turns, ApiPc.place]
  | idle | done | read => cases h
  | gate j g =>
    simp only [ApiPc.next, Option.some.injEq, Prod.mk.injEq] at h
    obtain ⟨-, rfl, rfl⟩ := h
    exact .work (j.gate_quiet m g)
  | _ =>
    simp only [ApiPc.next, Option.some.injEq, Prod.mk.injEq] at h
    obtain ⟨-, rfl, rfl⟩ := h
    refine .work ?_
    first
      | rfl
      | simp only [Job.return_quiet]
      | grind [Place.quiet, ApiPc.place, Job.again_quiet]

theorem WorkerPc.next_turns {m m' : Ctl} {i : Nat} {p p' : WorkerPc}
    (h : p.next c m i l x = some (m', p', k)) :
    Place.Turns c.ringMode (p.place c i) l k (p'.place c i) := by
  cases p with
  | depth =>
    cases l <;> simp only [WorkerPc.next] at h <;>
      grind [Place.Turns, WorkerPc.place, RingFn.entry, Place.quiet]
  | pop =>
    cases l <;> simp only [WorkerPc.next] at h <;>
      grind [Place.Turns, WorkerPc.place, RingFn.entry, Place.quiet]
  | process p slot n | onError p slot rc n =>
    cases n <;> cases x <;> simp only [WorkerPc.next, reduceCtorEq] at h <;>
      grind [Place.Turns, WorkerPc.place, Place.quiet]
  | returned => cases h
  | _ =>
    simp only [WorkerPc.next, Option.some.injEq, Prod.mk.injEq] at h
    obtain ⟨-, rfl, rfl⟩ := h
    refine .work ?_
    first | rfl | (split <;> rfl)

theorem Round.head_quiet (r : Round) : (r.head c).place.quiet = true := by
  rw [Round.head]
  split <;> rfl

theorem Round.next_quiet (r : Round) : (r.next c).place.quiet = true := Round.head_quiet _

theorem Ask.answer_quiet (q : Ask) (b : Bool) : (q.answer c b).place.quiet = true := by
  cases q <;> cases b <;> first | rfl | exact Round.next_quiet _

theorem Round.inspect_quiet (r : Round) (st : WState) (last : Nat) :
    (r.inspect c st last).place.quiet = true := by
  have hnext := r.next_quiet (c := c)
  rw [Round.inspect]
  grind [Place.quiet, SupPc.place]

theorem SupPc.next_turns {m m' : Ctl} {ended : Agent → Bool} {p p' : SupPc}
    (h : p.next c m ended l x = some (m', p', k)) :
    Place.Turns c.ringMode p.place l k p'.place := by
  cases p with
  | stallDepth r last =>
    cases l <;> simp only [SupPc.next] at h <;>
      grind [Place.Turns, SupPc.place, RingFn.entry, Place.quiet, Round.next_quiet]
  | quarClose r | reclose r | postClose r | failClose r | reopen r =>
    cases l <;> simp only [SupPc.next, ringCall] at h <;>
      grind [Place.Turns, SupPc.place, RingFn.entry, Place.quiet, ringClose, ringReopen,
        Round.next_quiet]
  | join r | create r =>
    cases x <;> simp only [SupPc.next] at h <;> grind [Place.Turns, SupPc.place, Place.quiet]
  | exitLock =>
    simp only [SupPc.next] at h
    grind [Place.Turns, SupPc.place, Place.quiet]
  | returned => cases h
  | _ =>
    simp only [SupPc.next, Option.some.injEq, Prod.mk.injEq] at h
    obtain ⟨-, rfl, rfl⟩ := h
    refine .work ?_
    first
      | rfl
      | simp only [Round.head_quiet, Round.next_quiet, Ask.answer_quiet, Round.inspect_quiet]
      | (split <;> first | rfl | simp only [Ask.answer_quiet])

theorem Exec.teardown_quiet (e : Exec) : (e.teardown.place c).quiet = true := by
  rw [Exec.teardown]
  split <;> simp only [ShutPc.place] <;> split <;> rfl

theorem Exec.workerHead_quiet (e : Exec) (i : Nat) : ((e.workerHead c i).place c).quiet = true := by
  rw [Exec.workerHead]
  split <;> rfl

theorem Exec.lateHead_quiet (e : Exec) (i : Nat) : ((e.lateHead c i).place c).quiet = true := by
  rw [Exec.lateHead]
  split
  · rename_i hi
    simp only [ShutPc.place, if_pos hi]
    rfl
  · rfl

theorem JoinFor.ok_quiet (t : JoinFor) (e : Exec) : ((t.ok e).place c).quiet = true := by
  cases t <;> rfl

theorem JoinFor.timeout_quiet (t : JoinFor) (e : Exec) :
    ((t.timeout e).place c).quiet = true := by
  cases t <;> rfl

theorem JoinFor.failed_quiet (t : JoinFor) (e : Exec) : ((t.failed e).place c).quiet = true := by
  cases t <;> rfl

theorem MarkFor.after_quiet (k : MarkFor) (e : Exec) :
    ((k.after e).place c).quiet = true := by
  cases k <;> rfl

theorem MarkFor.noted_quiet (k : MarkFor) (e : Exec) :
    ((k.noted e).place c).quiet = true := by
  cases k with
  | active =>
    simp only [MarkFor.noted, ShutPc.place]
    split <;> rfl
  | sup => exact Exec.teardown_quiet _
  | _ => rfl

theorem closeCall_turns {m m' : Ctl} {i : Nat} {here after p' : ShutPc}
    (h : closeCall m l i here after = some (m', p', k))
    (hhere : here.place c = .call i (.flag true)) (hafter : (after.place c).quiet = true) :
    Place.Turns c.ringMode (.call i (.flag true)) l k (p'.place c) := by
  cases l <;> simp only [closeCall] at h <;>
    grind [Place.Turns, RingFn.entry, Place.quiet, ringClose]

theorem ShutPc.next_turns {m m' : Ctl} {active : Int} {me : Agent} {p p' : ShutPc}
    (h : p.next c m active me l x = some (m', p', k)) :
    Place.Turns c.ringMode (p.place c) l k (p'.place c) := by
  cases p with
  | timeoutClose e i | closeAll e i | lateClose e i =>
    simp only [ShutPc.next] at h
    split at h
    · rename_i hi
      simp only [ShutPc.place, if_pos hi]
      refine closeCall_turns h (by simp only [ShutPc.place, if_pos hi]) ?_
      simp only [ShutPc.place]
      first | rfl | (split <;> rfl)
    · rename_i hi
      simp only [Option.some.injEq, Prod.mk.injEq] at h
      obtain ⟨-, rfl, rfl⟩ := h
      simp only [ShutPc.place, if_neg hi]
      exact .work rfl
  | stopClose e i => exact closeCall_turns h rfl rfl
  | drainPop e i =>
    cases l <;> simp only [ShutPc.next] at h <;>
      grind [Place.Turns, ShutPc.place, RingFn.entry, Place.quiet, Exec.workerHead_quiet]
  | joinCreate e t =>
    cases x <;> simp only [ShutPc.next] at h <;>
      grind [Place.Turns, ShutPc.place, Place.quiet, JoinFor.failed_quiet]
  | waitLock | waitRelock | quiesceLock | lifeLock e last =>
    simp only [ShutPc.next, Option.map_eq_some_iff, Prod.mk.injEq] at h
    obtain ⟨m₁, -, -, rfl, rfl⟩ := h
    exact .work rfl
  | cas life | waitLife | waitBlocked ticket | anyQuarantined e i =>
    simp only [ShutPc.next] at h
    grind [Place.Turns, ShutPc.place, Place.quiet]
  | done rc => cases h
  | _ =>
    simp only [ShutPc.next, Option.some.injEq, Prod.mk.injEq] at h
    obtain ⟨-, rfl, rfl⟩ := h
    refine .work ?_
    first
      | rfl
      | simp only [Exec.workerHead_quiet, Exec.lateHead_quiet, Exec.teardown_quiet,
          MarkFor.after_quiet, MarkFor.noted_quiet]
      | (split <;> first
          | rfl
          | simp only [Exec.workerHead_quiet, Exec.lateHead_quiet, Exec.teardown_quiet,
              JoinFor.timeout_quiet]
          | (split <;> first | rfl | simp only [JoinFor.ok_quiet, JoinFor.failed_quiet]))

theorem DestroyPc.next_shut {m : Ctl} {d : Dat} {me : Agent} {p : ShutPc}
    (hp : ∀ rc, p = .done rc → False) : (DestroyPc.shut p).next c m d me l x =
      (p.next c m d.activeSubmits me l x).map fun (m', p', k) ↦ (m', .shut p', k) := by
  rw [DestroyPc.next]
  exact hp

theorem DestroyPc.next_turns {m m' : Ctl} {d : Dat} {me : Agent} {p p' : DestroyPc}
    (h : p.next c m d me l x = some (m', p', k)) :
    Place.Turns c.ringMode (p.place c) l k (p'.place c) := by
  cases p with
  | shut p =>
    by_cases hp : ∃ rc, p = .done rc
    · obtain ⟨rc, rfl⟩ := hp
      cases h
      exact .work rfl
    · rw [DestroyPc.next_shut (fun rc hrc ↦ hp ⟨rc, hrc⟩), Option.map_eq_some_iff] at h
      obtain ⟨⟨m₁, p₁, k₁⟩, hn, he⟩ := h
      simp only [Prod.mk.injEq] at he
      obtain ⟨-, rfl, rfl⟩ := he
      exact ShutPc.next_turns hn
  | lock | relock =>
    simp only [DestroyPc.next, Option.map_eq_some_iff, Prod.mk.injEq] at h
    obtain ⟨m₁, -, -, rfl, rfl⟩ := h
    exact .work rfl
  | released | leaked | refused => cases h
  | _ =>
    simp only [DestroyPc.next] at h
    grind [Place.Turns, DestroyPc.place, ShutPc.place, Place.quiet]

end Turns

/-! ## The pool is a client of its rings -/

/-- Ring `i` and the locations of all parties in it. -/
def Pool.shard (s : Pool) (i : Nat) : RingSys Agent Nat :=
  ⟨s.ring i, fun a ↦ if (s.thr a).sh = i then (s.thr a).loc else .idle⟩

/-- The program a party runs. -/
def Agent.runs : Agent → Pc → Bool
  | .api _, .api _ | .api _, .shut _ | .api _, .destroy _ => true
  | .worker _ _, .worker _ => true
  | .sup, .sup _ => true
  | .helper _, .helper _ => true
  | _, _ => false

/-- Every party is at home in its program, and at a ring location that fits its place there. -/
structure Seated (c : Config) (s : Pool) : Prop where
  runs : ∀ a : Agent, a.runs (s.thr a).pc = true
  fits : ∀ a, ((s.thr a).pc.place c a).Fits (s.thr a).sh (s.thr a).loc

section Moves

variable {c : Config} {s s' : Pool}

theorem Place.quiet_fits {P : Place} (h : P.quiet = true) (sh : Nat) : P.Fits sh .idle := by
  cases P with
  | out => rfl
  | call i f => exact Or.inl ⟨rfl, h⟩
  | hold i pos => cases h

theorem RingFn.spans_entry (mode : RingMode) (f : RingFn)
    (h : f = .pop mode.singleConsumer ∨ ∀ sc, f ≠ .pop sc) : f.spans (f.entry mode) = true := by
  cases f with
  | commit pos | flag v => exact decide_eq_true rfl
  | pop sc =>
    rcases h with h | h
    · cases h
      exact decide_eq_true rfl
    · exact absurd rfl (h sc)
  | _ => rfl

theorem Cmd.apply_call {sh sh' i : Nat} {l l' e : Loc Nat Nat}
    (h : (Cmd.call i e).apply sh l = some (sh', l')) : l = .idle ∧ sh' = i ∧ l' = e := by
  cases l <;> simp only [Cmd.apply, Option.some.injEq, Prod.mk.injEq, reduceCtorEq] at h
  exact ⟨rfl, h.1.symm, h.2.symm⟩

/-- The place fits again after a turn of a party that pops only the way the mode says. -/
theorem Place.Turns.fits {P P' : Place} {l l' : Loc Nat Nat} {k : Cmd} {sh sh' : Nat}
    (h : Turns c.ringMode P l k P') (hP : P.Fits sh l) (hk : k.apply sh l = some (sh', l'))
    (hpop : ∀ i sc, P = .call i (.pop sc) → sc = c.ringMode.singleConsumer) :
    P'.Fits sh' l' := by
  cases h with
  | work hq =>
    simp only [Cmd.apply, Option.some.injEq, Prod.mk.injEq] at hk
    obtain ⟨rfl, rfl⟩ := hk
    cases hP
    exact quiet_fits hq _
  | enter hq he =>
    rename_i i f e
    obtain ⟨-, rfl, rfl⟩ := Cmd.apply_call hk
    refine Or.inr ⟨rfl, he ▸ f.spans_entry c.ringMode ?_⟩
    by_cases hf : ∃ sc, f = .pop sc
    · obtain ⟨sc, rfl⟩ := hf
      exact Or.inl (congrArg _ (hpop _ sc rfl))
    · exact Or.inr fun sc hsc ↦ hf ⟨sc, hsc⟩
  | leave hq =>
    simp only [Cmd.apply, Option.some.injEq, Prod.mk.injEq] at hk
    obtain ⟨rfl, rfl⟩ := hk
    exact quiet_fits hq _
  | reserved =>
    simp only [Cmd.apply, Option.some.injEq, Prod.mk.injEq] at hk
    obtain ⟨rfl, rfl⟩ := hk
    rcases hP with ⟨hl, -⟩ | ⟨hsh, -⟩
    · cases hl
    · exact ⟨hsh, rfl⟩
  | hold =>
    simp only [Cmd.apply, Option.some.injEq, Prod.mk.injEq] at hk
    obtain ⟨rfl, rfl⟩ := hk
    exact hP
  | publish =>
    simp only [Cmd.apply, Option.some.injEq, Prod.mk.injEq] at hk
    obtain ⟨rfl, rfl⟩ := hk
    exact Or.inr ⟨hP.1, hP.2 ▸ decide_eq_true rfl⟩
  | commit =>
    simp only [Cmd.apply, Option.some.injEq, Prod.mk.injEq] at hk
    obtain ⟨rfl, rfl⟩ := hk
    rcases hP with ⟨hl, -⟩ | ⟨hsh, hsp⟩
    · cases hl
    · exact Or.inr ⟨hsh, hsp⟩

/-- What a turn does to the party's location in any shard is what a client may do. -/
theorem Place.Turns.client {P P' : Place} {l l' : Loc Nat Nat} {k : Cmd} {sh sh' : Nat}
    (h : Turns c.ringMode P l k P') (hk : k.apply sh l = some (sh', l')) (i : Nat) :
    (if sh' = i then l' else .idle) = (if sh = i then l else .idle) ∨
      Client (if sh = i then l else .idle) (if sh' = i then l' else .idle) := by
  cases h with
  | work | reserved | hold | publish =>
    simp only [Cmd.apply, Option.some.injEq, Prod.mk.injEq] at hk
    obtain ⟨rfl, rfl⟩ := hk
    exact Or.inl rfl
  | enter hq he =>
    rename_i j f e
    obtain ⟨-, rfl, rfl⟩ := Cmd.apply_call hk
    subst he
    simp only [ite_self]
    by_cases hi : sh' = i
    · simp only [if_pos hi]
      cases f with
      | commit pos => cases hq
      | pop sc => exact Or.inr (.enter (.pop _))
      | flag v => cases v <;> first | exact Or.inr (.enter .close) | exact Or.inr (.enter .reopen)
      | claim => exact Or.inr (.enter .claim)
      | waitSpace => exact Or.inr (.enter .waitSpace)
      | depth => exact Or.inr (.enter .depth)
    · simp only [if_neg hi, true_or]
  | leave =>
    simp only [Cmd.apply, Option.some.injEq, Prod.mk.injEq] at hk
    obtain ⟨rfl, rfl⟩ := hk
    by_cases hi : sh = i
    · simp only [if_pos hi]
      exact Or.inr (.leave _)
    · simp only [if_neg hi, true_or]
  | commit =>
    simp only [Cmd.apply, Option.some.injEq, Prod.mk.injEq] at hk
    obtain ⟨rfl, rfl⟩ := hk
    by_cases hi : sh = i
    · simp only [if_pos hi]
      exact Or.inr (.commit _ _)
    · simp only [if_neg hi, true_or]

/-- Whose step outside the ring functions it is. -/
theorem Pool.next_cases {a : Agent} {x : Choice} {m : Ctl} {d : Dat} {pc : Pc} {k : Cmd}
    (hr : a.runs (s.thr a).pc = true) (h : s.next c a x = some (m, d, pc, k)) :
    (∃ n p p', a = .api n ∧ (s.thr a).pc = .api p ∧ pc = .api p' ∧ m = s.ctl ∧
      p.next c s.ctl s.dat (s.thr a).loc x = some (d, p', k)) ∨
    (∃ n p p', a = .api n ∧ (s.thr a).pc = .shut p ∧ pc = .shut p' ∧ d = s.dat ∧
      p.next c s.ctl s.dat.activeSubmits a (s.thr a).loc x = some (m, p', k)) ∨
    (∃ n p p', a = .api n ∧ (s.thr a).pc = .destroy p ∧ pc = .destroy p' ∧ d = s.dat ∧
      p.next c s.ctl s.dat a (s.thr a).loc x = some (m, p', k)) ∨
    (∃ i j p p', a = .worker i j ∧ (s.thr a).pc = .worker p ∧ pc = .worker p' ∧ d = s.dat ∧
      p.next c s.ctl i (s.thr a).loc x = some (m, p', k)) ∨
    (∃ p p', a = .sup ∧ (s.thr a).pc = .sup p ∧ pc = .sup p' ∧ d = s.dat ∧
      p.next c s.ctl s.ended (s.thr a).loc x = some (m, p', k)) ∨
    (∃ j p p', a = .helper j ∧ (s.thr a).pc = .helper p ∧ pc = .helper p' ∧ d = s.dat ∧
      p.next s.ctl s.ended j x = some (m, p', k)) := by
  cases hpc : (s.thr a).pc with
  | api p =>
    rw [hpc] at hr
    cases a <;> simp only [Agent.runs, Bool.false_eq_true] at hr
    simp only [Pool.next, hpc, Option.map_eq_some_iff, Prod.mk.injEq] at h
    obtain ⟨⟨d', p', k'⟩, hn, rfl, rfl, rfl, rfl⟩ := h
    exact Or.inl ⟨_, p, p', rfl, rfl, rfl, rfl, hn⟩
  | shut p =>
    rw [hpc] at hr
    cases a <;> simp only [Agent.runs, Bool.false_eq_true] at hr
    simp only [Pool.next, hpc, Option.map_eq_some_iff, Prod.mk.injEq] at h
    obtain ⟨⟨d', p', k'⟩, hn, rfl, rfl, rfl, rfl⟩ := h
    exact Or.inr (Or.inl ⟨_, p, p', rfl, rfl, rfl, rfl, hn⟩)
  | destroy p =>
    rw [hpc] at hr
    cases a <;> simp only [Agent.runs, Bool.false_eq_true] at hr
    simp only [Pool.next, hpc, Option.map_eq_some_iff, Prod.mk.injEq] at h
    obtain ⟨⟨d', p', k'⟩, hn, rfl, rfl, rfl, rfl⟩ := h
    exact Or.inr (Or.inr (Or.inl ⟨_, p, p', rfl, rfl, rfl, rfl, hn⟩))
  | worker p =>
    rw [hpc] at hr
    cases a <;> simp only [Agent.runs, Bool.false_eq_true] at hr
    simp only [Pool.next, hpc, Option.map_eq_some_iff, Prod.mk.injEq] at h
    obtain ⟨⟨d', p', k'⟩, hn, rfl, rfl, rfl, rfl⟩ := h
    exact Or.inr (Or.inr (Or.inr (Or.inl ⟨_, _, p, p', rfl, rfl, rfl, rfl, hn⟩)))
  | sup p =>
    rw [hpc] at hr
    cases a <;> simp only [Agent.runs, Bool.false_eq_true] at hr
    simp only [Pool.next, hpc, Option.map_eq_some_iff, Prod.mk.injEq] at h
    obtain ⟨⟨d', p', k'⟩, hn, rfl, rfl, rfl, rfl⟩ := h
    exact Or.inr (Or.inr (Or.inr (Or.inr (Or.inl ⟨p, p', rfl, rfl, rfl, rfl, hn⟩))))
  | helper p =>
    rw [hpc] at hr
    cases a <;> simp only [Agent.runs, Bool.false_eq_true] at hr
    simp only [Pool.next, hpc, Option.map_eq_some_iff, Prod.mk.injEq] at h
    obtain ⟨⟨d', p', k'⟩, hn, rfl, rfl, rfl, rfl⟩ := h
    exact Or.inr (Or.inr (Or.inr (Or.inr (Or.inr ⟨_, p, p', rfl, rfl, rfl, rfl, hn⟩))))

theorem HelperPc.next_stay {m m' : Ctl} {ended : Agent → Bool} {j : Nat} {x : Choice}
    {p p' : HelperPc} {k : Cmd} (h : p.next m ended j x = some (m', p', k)) : k = .stay := by
  cases p with
  | join => cases x <;> simp only [HelperPc.next] at h <;> grind
  | post rc =>
    simp only [HelperPc.next, Option.some.injEq, Prod.mk.injEq] at h
    exact h.2.2.symm
  | done => cases h

theorem Pool.next_turns {a : Agent} {x : Choice} {m : Ctl} {d : Dat} {pc : Pc} {k : Cmd}
    (hr : a.runs (s.thr a).pc = true) (h : s.next c a x = some (m, d, pc, k)) :
    Place.Turns c.ringMode ((s.thr a).pc.place c a) (s.thr a).loc k (pc.place c a) ∧
      a.runs pc = true := by
  rcases Pool.next_cases hr h with ⟨n, p, p', rfl, hp, rfl, -, hn⟩ | ⟨n, p, p', rfl, hp, rfl, -, hn⟩ |
    ⟨n, p, p', rfl, hp, rfl, -, hn⟩ | ⟨i, j, p, p', rfl, hp, rfl, -, hn⟩ | ⟨p, p', rfl, hp, rfl, -, hn⟩ |
    ⟨j, p, p', rfl, hp, rfl, -, hn⟩ <;> rw [hp] <;> refine ⟨?_, rfl⟩
  · exact ApiPc.next_turns hn
  · exact ShutPc.next_turns hn
  · exact DestroyPc.next_turns hn
  · exact WorkerPc.next_turns hn
  · exact SupPc.next_turns hn
  · rw [HelperPc.next_stay hn]
    exact .work rfl

/-- Pops are called the way the mode says. -/
theorem Pc.place_pop {a : Agent} {pc : Pc} {i : Nat} {sc : Bool}
    (h : pc.place c a = .call i (.pop sc)) : sc = c.ringMode.singleConsumer := by
  have hshut : ∀ p : ShutPc, p.place c = .call i (.pop sc) → sc = c.ringMode.singleConsumer := by
    intro p hp
    cases p <;> simp only [ShutPc.place, reduceCtorEq] at hp <;> grind
  cases pc with
  | api p => cases p <;> simp [Pc.place, ApiPc.place] at h
  | shut p => exact hshut p h
  | destroy p =>
    cases p with
    | shut p => exact hshut p h
    | _ => simp [Pc.place, DestroyPc.place] at h
  | worker p =>
    cases a with
    | worker j k =>
      cases p <;> simp only [Pc.place, WorkerPc.place, reduceCtorEq, Place.call.injEq,
        RingFn.pop.injEq] at h
      · exact absurd h.2 (by simp)
      · exact h.2.symm
    | _ => cases h
  | sup p => cases p <;> simp [Pc.place, SupPc.place] at h
  | helper p => cases h

theorem Pool.start_quiet {n : Nat} {pc : Pc} {e : Label}
    (h : (∃ pool f, e = .call n pool f ∧ pc = .api (f.start c pool)) ∨
      (∃ tls, e = .shutdown n tls ∧ pc = .shut (if tls then .done edeadlk else .start)) ∨
      (e = .destroy n ∧ pc = .destroy .cas)) :
    pc.place c (.api n) = .out ∧ (Agent.api n).runs pc = true := by
  rcases h with ⟨pool, f, -, rfl⟩ | ⟨tls, -, rfl⟩ | ⟨-, rfl⟩
  · refine ⟨?_, rfl⟩
    cases f <;> simp only [Pc.place, ApiCall.start] <;> grind [ApiPc.place]
  · cases tls <;> exact ⟨rfl, rfl⟩
  · exact ⟨rfl, rfl⟩

theorem Seated.init (now : Nat) : Seated c (Pool.init c now) where
  runs a := by cases a <;> rfl
  fits a := by cases a <;> rfl

theorem Seated.step (hs : Seated c s) {e : Label} (h : s.step c e = some s') : Seated c s' := by
  rcases Pool.step_cases h with ⟨t, -, rfl⟩ | ⟨n, pc, hpc, hstart, rfl⟩ |
    ⟨a, x, spurious, r, l, -, -, hact, -, hstep, rfl⟩ |
    ⟨a, x, m, d, pc, k, sh, l, -, -, hact, hnext, hk, rfl⟩
  · exact ⟨hs.runs, hs.fits⟩
  · obtain ⟨hout, hruns⟩ := Pool.start_quiet hstart
    have hidle := hs.fits (.api n)
    rw [hpc] at hidle
    constructor <;> intro b <;> by_cases hb : b = .api n
    · subst hb
      simpa only [Function.update_self] using hruns
    · simpa only [Function.update_of_ne hb] using hs.runs b
    · subst hb
      simp only [Function.update_self, hout]
      exact hidle
    · simpa only [Function.update_of_ne hb] using hs.fits b
  · have hfit := hs.fits a
    constructor <;> intro b <;> by_cases hb : b = a
    · subst hb
      simpa only [Function.update_self] using hs.runs b
    · simpa only [Function.update_of_ne hb] using hs.runs b
    · subst hb
      simp only [Function.update_self]
      -- an active location belongs to a call, and the call goes on
      cases hP : (s.thr b).pc.place c b with
      | out =>
        rw [hP] at hfit
        rw [show (s.thr b).loc = .idle from hfit] at hact
        cases hact
      | call i f =>
        rw [hP] at hfit
        rcases hfit with ⟨hl, -⟩ | ⟨hsh, hsp⟩
        · rw [hl] at hact
          cases hact
        · exact Or.inr ⟨hsh, f.spans_step hsp hstep⟩
      | hold i pos =>
        rw [hP] at hfit
        rw [hfit.2] at hact
        cases hact
    · simpa only [Function.update_of_ne hb] using hs.fits b
  · obtain ⟨hturn, hruns⟩ := Pool.next_turns (hs.runs a) hnext
    constructor <;> intro b <;> by_cases hb : b = a
    · subst hb
      simpa only [Function.update_self] using hruns
    · simpa only [Function.update_of_ne hb] using hs.runs b
    · subst hb
      simpa only [Function.update_self] using
        hturn.fits (hs.fits b) hk fun i sc hpop ↦ Pc.place_pop hpop
    · simpa only [Function.update_of_ne hb] using hs.fits b

/-- A step of the pool is a move of one shard at most. -/
theorem Pool.step_shard (hs : Seated c s) {e : Label} (h : s.step c e = some s') (i : Nat) :
    s'.shard i = s.shard i ∨ Move c.capacity (s.shard i) (s'.shard i) := by
  rcases Pool.step_cases h with ⟨t, -, rfl⟩ | ⟨n, pc, hpc, hstart, rfl⟩ |
    ⟨a, x, spurious, r, l, -, -, hact, -, hstep, rfl⟩ |
    ⟨a, x, m, d, pc, k, sh, l, -, -, hact, hnext, hk, rfl⟩
  · exact Or.inl rfl
  · left
    simp only [Pool.shard, RingSys.mk.injEq, true_and]
    funext b
    by_cases hb : b = .api n
    · subst hb
      simp only [Function.update_self]
    · simp only [Function.update_of_ne hb]
  · by_cases hi : (s.thr a).sh = i
    · right
      subst hi
      have hloc : (s.shard (s.thr a).sh).loc a = (s.thr a).loc := if_pos rfl
      have hmove : Move c.capacity (s.shard (s.thr a).sh) _ := .access a spurious (hloc ▸ hstep)
      convert hmove using 1
      simp only [Pool.shard, Function.update_self, RingSys.mk.injEq, true_and]
      funext b
      by_cases hb : b = a
      · subst hb
        simp only [Function.update_self, if_pos]
      · simp only [Function.update_of_ne hb]
    · left
      simp only [Pool.shard, Function.update_of_ne (Ne.symm hi), RingSys.mk.injEq, true_and]
      funext b
      by_cases hb : b = a
      · subst hb
        simp only [Function.update_self, if_neg hi]
      · simp only [Function.update_of_ne hb]
  · obtain ⟨hturn, -⟩ := Pool.next_turns (hs.runs a) hnext
    have hshard : ({ s with ctl := m, dat := d, thr := Function.update s.thr a ⟨pc, sh, l⟩ } :
        Pool).shard i = ⟨(s.shard i).ring,
          Function.update (s.shard i).loc a (if sh = i then l else .idle)⟩ := by
      simp only [Pool.shard, RingSys.mk.injEq, true_and]
      funext b
      by_cases hb : b = a
      · subst hb
        simp only [Function.update_self]
      · simp only [Function.update_of_ne hb]
    rw [hshard]
    rcases hturn.client hk i with heq | hcl
    · left
      rw [heq]
      exact congrArg _ (Function.update_eq_self a (s.shard i).loc)
    · exact Or.inr (.client a hcl)

end Moves

/-! ## One consumer at a time -/

/-- The party is about to pop on shard `i`, or inside the pop. -/
def Pool.pops (c : Config) (s : Pool) (a : Agent) (i : Nat) : Prop :=
  (s.thr a).pc.place c a = .call i (.pop c.ringMode.singleConsumer)

/-- At most one party at a time pops on a shard. -/
def Pool.Sole (c : Config) (s : Pool) : Prop :=
  ∀ i a b, s.pops c a i → s.pops c b i → a = b

section Sole

variable {c : Config} {s s' : Pool}

theorem RingFn.spans_popKind {f : RingFn} {l : Loc Nat Nat} {sc : Bool} (h : f.spans l = true)
    (hl : l.popKind = some sc) : f = .pop sc := by
  cases l with
  | wait q w k => cases k <;> cases q <;> cases f <;> simp_all [RingFn.spans, Loc.popKind]
  | _ => cases f <;> simp_all [RingFn.spans, Loc.popKind]

theorem RingFn.spans_enqKind {f : RingFn} {l : Loc Nat Nat} (h : f.spans l = true) :
    l.enqKind ≠ some true := by
  intro hl
  cases l with
  | wait q w k => cases k <;> cases q <;> cases f <;> simp_all [RingFn.spans, Loc.enqKind]
  | enqClosed k _ | enqPos k _ | enqSeq k _ _ | enqCas k _ _ =>
    cases k <;> cases f <;> simp_all [RingFn.spans, Loc.enqKind, Enq.sp]
  | pubData sp _ _ | pubSeq sp _ _ =>
    cases sp <;> cases f <;> simp_all [RingFn.spans, Loc.enqKind]
  | _ => cases f <;> simp_all [RingFn.spans, Loc.enqKind]

theorem Seated.pops_of_popKind (hs : Seated c s) {a : Agent} {i : Nat} {sc : Bool}
    (h : ((s.shard i).loc a).popKind = some sc) : s.pops c a i := by
  have hfit := hs.fits a
  simp only [Pool.shard] at h
  split at h
  · rename_i hsh
    cases hP : (s.thr a).pc.place c a with
    | out =>
      rw [hP] at hfit
      rw [show (s.thr a).loc = .idle from hfit] at h
      cases h
    | call j f =>
      rw [hP] at hfit
      rcases hfit with ⟨hl, -⟩ | ⟨hj, hsp⟩
      · rw [hl] at h
        cases h
      · have hf := RingFn.spans_popKind hsp h
        rw [hf] at hP
        have hsc := Pc.place_pop hP
        rw [Pool.pops, hP, ← hj, hsh, hsc]
    | hold j pos =>
      rw [hP] at hfit
      rw [hfit.2] at h
      cases h
  · cases h

theorem Seated.enqKind_ne (hs : Seated c s) (a : Agent) (i : Nat) :
    ((s.shard i).loc a).enqKind ≠ some true := by
  have hfit := hs.fits a
  simp only [Pool.shard]
  split
  · cases hP : (s.thr a).pc.place c a with
    | out =>
      rw [hP] at hfit
      rw [show (s.thr a).loc = .idle from hfit]
      decide
    | call j f =>
      rw [hP] at hfit
      rcases hfit with ⟨hl, -⟩ | ⟨hj, hsp⟩
      · rw [hl]
        decide
      · exact RingFn.spans_enqKind hsp
    | hold j pos =>
      rw [hP] at hfit
      rw [hfit.2]
      simp [Loc.enqKind]
  · decide

/-- The discipline of the rings, from that of the pool. -/
theorem Seated.exclusive (hs : Seated c s) (hsole : s.Sole c) (i : Nat) :
    Exclusive (s.shard i).loc where
  enq a b hab ha := absurd (Loc.enqKind_of_inEnqSp ha) (hs.enqKind_ne a i)
  pop a b hab ha := by
    by_contra hb
    obtain ⟨sc, hsc⟩ := Option.isSome_iff_exists.mp (Loc.popKind_of_inPop (by simpa using hb))
    exact hab (hsole i a b (hs.pops_of_popKind (Loc.popKind_of_inPopSc ha))
      (hs.pops_of_popKind hsc))

/-- Every shard keeps the ring invariant while one party at a time pops on it. -/
theorem RingInv.pool_step (h : ∀ i, RingInv c.capacity (s.shard i)) (hs : Seated c s)
    (hsole : s.Sole c) {e : Label} (hst : s.step c e = some s') (i : Nat) :
    RingInv c.capacity (s'.shard i) := by
  rcases Pool.step_shard hs hst i with heq | hmove
  · rw [heq]
    exact h i
  · exact (h i).move (hs.exclusive hsole i) hmove

theorem Pool.init_shard (now i : Nat) : (Pool.init c now).shard i = .start (Ring.init id) := by
  simp only [Pool.shard, RingSys.start, RingSys.mk.injEq]
  refine ⟨rfl, funext fun a ↦ ?_⟩
  cases a <;> exact ite_self _

theorem RingInv.pool_init (now : Nat) (i : Nat) :
    RingInv c.capacity ((Pool.init c now).shard i) := by
  rw [Pool.init_shard]
  exact .start id

end Sole

end Awp
