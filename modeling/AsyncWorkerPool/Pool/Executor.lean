import AsyncWorkerPool.Pool.Custody

/-!
# Executor — what the executing shutdown call knows at each of its locations

Exactly one shutdown call wins the compare-exchange and takes the pool down.  `ShutPc.facts` lists
what it knows where it stands; the facts about workers are only claimed once the supervisor has
been joined, when nobody else writes `joined` or creates threads.
-/

open Foundation

namespace Awp

/-! ## The locations of the executor -/

/-- The locations that only the call that published `QUIESCING` reaches. -/
def ShutPc.executes : ShutPc → Bool
  | .start | .obsAborts | .obsQuarantined | .cas _ | .waitLock | .waitInc | .waitLife
  | .waitBlocked _ | .waitRelock | .waitAborts | .waitQuarantined | .waitDec _ | .waitBroadcast _
  | .waitUnlock _ | .done _ => false
  | _ => true

/-- What the executor may know. -/
inductive Fact where
  | noHelpers
  /-- Shutdown has quarantined workers below `i` only. -/
  | lateBelow (i : Nat)
  /-- Helpers for workers exist below `i` only. -/
  | helpersBelow (i : Nat)
  | quarantined
  /-- `can_close` is still 1, or else the pool is quarantined. -/
  | kept (x : Exec)
  | supUnjoined
  | supHelper (h : Nat)
  | supCollected
  -- from here on the supervisor has been joined
  | settled (i : Nat)
  | unjoined (i : Nat)
  | joined (i : Nat)
  | joinedOrQuarantined (i : Nat)
  | notQuarantined (i : Nat)
  | notStarting (i : Nat)
  | leftOrLate (d i : Nat)
  | ended (i : Nat)
  | endedOrLate (d i : Nat)
  | harmless (d i : Nat)
  | helper (h i : Nat)
  | collected (i : Nat)
  -- a bound on a loop counter, the time, and the verdict
  | inRange (i : Nat)
  | timeUp (d : Nat)
  | open_ (life : Life)
  | final
  deriving DecidableEq

def Fact.Holds (c : Config) (m : Ctl) (T : Crew) : Fact → Prop
  | .noHelpers => m.helpers = 0
  | .lateBelow i => ∀ j ≥ i, (m.w j).late = false
  | .helpersBelow i => ∀ h < m.helpers, ∀ j k, m.target h = .worker j k → j < i
  | .quarantined => m.quarantined = true
  | .kept x => x.canClose = false → m.quarantined = true
  | .supUnjoined => c.enableSupervisor = true ∧ m.supervisorJoined = false
  | .supHelper h => h < m.helpers ∧ m.target h = .sup
  | .supCollected => m.joins .sup = 1
  | .settled i => m.supervisorJoined = true ∧
    ∀ j < i, (m.w j).joined = true ∨ m.quarantined = true
  | .unjoined i => m.supervisorJoined = true ∧ (m.w i).joined = false
  | .joined i => m.supervisorJoined = true ∧ (m.w i).joined = true
  | .joinedOrQuarantined i => m.supervisorJoined = true ∧
    ((m.w i).joined = true ∨ m.quarantined = true)
  | .notQuarantined i => m.supervisorJoined = true ∧ (m.w i).state ≠ .quarantined
  | .notStarting i => m.supervisorJoined = true ∧ (m.w i).state ≠ .quarantined ∧
    (m.w i).state ≠ .starting
  | .leftOrLate d i => m.supervisorJoined = true ∧ (d ≤ m.clock ∨
    (((m.w i).state = .exited ∨ (m.w i).state = .joined) ∧ T.stage i (m.w i).cur = .ended))
  | .ended i => m.supervisorJoined = true ∧ T.stage i (m.w i).cur = .ended
  | .endedOrLate d i => m.supervisorJoined = true ∧ (T.stage i (m.w i).cur = .ended ∨ d ≤ m.clock)
  | .harmless d i => m.supervisorJoined = true ∧ (T.stage i (m.w i).cur = .ended ∨ d ≤ m.clock ∨
    ((m.w i).state = .quarantined ∧ T.stage i (m.w i).cur ≠ .fresh))
  | .helper h i => m.supervisorJoined = true ∧ h < m.helpers ∧ m.target h = m.handle i
  | .collected i => m.supervisorJoined = true ∧ m.joins (m.handle i) = 1
  | .inRange i => i < c.nWorkers
  | .timeUp d => d ≤ m.clock
  | .open_ life => life = .init ∨ life = .running
  | .final => m.quarantined = true ∨
    (m.supervisorJoined = true ∧ ∀ i < c.nWorkers, (m.w i).joined = true)

/-- In the loop over the workers, at worker `i` or about to go there. -/
def loopFacts (i : Nat) : List Fact := [.lateBelow i, .helpersBelow i, .settled i]

/-- The same, worker `i` having had its turn. -/
def afterFacts (i : Nat) : List Fact := [.inRange i, .lateBelow (i + 1), .helpersBelow (i + 1), .settled i]

def MarkFor.facts (x : Exec) : MarkFor → List Fact
  | .active => [.noHelpers, .lateBelow 0]
  | .sup => [.lateBelow 0, .helpersBelow 0]
  | .seen i | .joinLate i | .joinFailed i | .stuck i => .harmless x.deadline i :: afterFacts i
  | .late | .final => []

@[simp] def ShutPc.facts : ShutPc → List Fact
  | .quiesceLock | .quiesceBroadcast | .quiesceUnlock | .now | .activeLoop _ | .activeClock _
  | .activeTest _ => [.noHelpers, .lateBelow 0]
  | .timeoutClose x _ | .supStop x | .lifeLock x false | .lifeStore x false
  | .lifeBroadcast x false | .lifeUnlock x false | .supJoinedLoad x =>
    [.noHelpers, .lateBelow 0, .kept x]
  | .supClock x | .supPhase x | .supAlive x | .supPhase2 x | .supAlive2 x | .joinClock x .sup
  | .joinCreate x .sup => [.noHelpers, .lateBelow 0, .kept x, .supUnjoined]
  | .joinPoll x .sup h | .joinPollClock x .sup h =>
    [.lateBelow 0, .helpersBelow 0, .kept x, .supHelper h]
  | .supSetJoined x => [.lateBelow 0, .helpersBelow 0, .kept x, .supCollected]
  | .closeAll _ _ | .closeFrames _ => loopFacts 0
  | .workerJoined _ i | .workerState _ i => .inRange i :: loopFacts i
  | .waitStarting _ i | .waitClock _ i => .notQuarantined i :: .inRange i :: loopFacts i
  | .waitRunning _ i => .notStarting i :: .inRange i :: loopFacts i
  | .workerState2 x i => .leftOrLate x.deadline i :: .inRange i :: loopFacts i
  | .exitedJoined _ i _ => .ended i :: .inRange i :: loopFacts i
  | .joinClock _ (.worker i _) | .joinCreate _ (.worker i _) =>
    .unjoined i :: .ended i :: .inRange i :: loopFacts i
  | .joinPoll _ (.worker i _) h | .joinPollClock _ (.worker i _) h =>
    .helper h i :: .ended i :: afterFacts i
  | .setJoined _ i _ => .collected i :: .ended i :: afterFacts i
  | .setStateJoined _ i _ => .joined i :: .ended i :: afterFacts i
  | .setQuarantined x i => .quarantined :: .harmless x.deadline i :: afterFacts i
  | .stopStore x i | .stopClose x i | .graceNow x i | .graceRunning x i _ | .graceStarting x i _
  | .graceClock x i _ | .graceDeadline x i _ | .graceExited x i | .stuckStore x i =>
    .timeUp x.deadline :: .inRange i :: loopFacts i
  | .mark x k => k.facts x
  | .markFrames x k => .quarantined :: k.facts x
  | .noteAbort x (.stuck i) => .joinedOrQuarantined i :: MarkFor.facts x (.stuck i)
  | .noteAbort x k => .quarantined :: k.facts x
  | .drainState x i => .joinedOrQuarantined i :: .harmless x.deadline i :: afterFacts i
  | .drainClock x i => .joinedOrQuarantined i :: .endedOrLate x.deadline i :: afterFacts i
  | .drainPop _ i | .drainCount _ i _ => .joinedOrQuarantined i :: .ended i :: afterFacts i
  | .lateClose _ _ | .lateRunning _ _ | .lateStarting _ _ | .lateStore _ _ => [.quarantined]
  | .anyQuarantined _ _ | .anyActive _ | .persistLoad _ | .persistCas _ | .lifeLock _ true
  | .lifeStore _ true => [.final]
  | .cas life => [.open_ life]
  | _ => []

/-- The executor knows all of them. -/
def Known (c : Config) (m : Ctl) (T : Crew) (fs : List Fact) : Prop := ∀ f ∈ fs, f.Holds c m T

@[simp] theorem Known.nil {c : Config} {m : Ctl} {T : Crew} : Known c m T [] := by
  simp [Known]

@[simp] theorem Known.cons {c : Config} {m : Ctl} {T : Crew} {f : Fact} {fs : List Fact} :
    Known c m T (f :: fs) ↔ f.Holds c m T ∧ Known c m T fs := by
  simp [Known]

/-! ## What the others may do meanwhile -/

/-- What a step of anybody but the executor leaves as it is, or moves in one direction only. -/
structure Rely (c : Config) (m m' : Ctl) (T T' : Crew) : Prop where
  executor : m'.executor = m.executor
  helpers : m'.helpers = m.helpers
  target : m'.target = m.target
  late : ∀ i, (m'.w i).late = (m.w i).late
  supJoined : m'.supervisorJoined = m.supervisorJoined
  quarantined : m.quarantined = true → m'.quarantined = true
  clock : m.clock ≤ m'.clock
  joins : ∀ a, m.joins a = 1 → m'.joins a = 1
  ended : ∀ i k, T.stage i k = .ended → T'.stage i k = .ended
  begun : ∀ i k, T.stage i k ≠ .fresh → T'.stage i k ≠ .fresh
  /-- Without a supervisor only the workers write about themselves. -/
  joined : m.supervisorJoined = true → ∀ i, (m'.w i).joined = (m.w i).joined
  spawned : m.supervisorJoined = true → ∀ i, (m'.w i).spawned = (m.w i).spawned
  state : m.supervisorJoined = true → ∀ i, (m'.w i).state = (m.w i).state ∨
    ((m'.w i).state = .running ∧ T.stage i (m.w i).cur = .fresh) ∨
    ((m'.w i).state = .exited ∧ T'.stage i (m.w i).cur = .ended)

section Stable

variable {c : Config} {m m' : Ctl} {T T' : Crew}

theorem Rely.cur (h : Rely c m m' T T') (hj : m.supervisorJoined = true) (i : Nat) :
    (m'.w i).cur = (m.w i).cur := by
  rw [Worker.cur, h.spawned hj, Worker.cur]

theorem Rely.handle (h : Rely c m m' T T') (hj : m.supervisorJoined = true) (i : Nat) :
    m'.handle i = m.handle i := by
  rw [Ctl.handle, h.spawned hj, Ctl.handle]

/-- Whatever the executor knows stays true while the others move. -/
theorem Fact.Holds.stable {f : Fact} (hf : f.Holds c m T) (h : Rely c m m' T T') :
    f.Holds c m' T' := by
  cases f with
  | noHelpers => exact h.helpers.trans hf
  | lateBelow i => exact fun j hj ↦ (h.late j).trans (hf j hj)
  | helpersBelow i =>
    intro k hk j n ht
    rw [h.helpers] at hk
    rw [h.target] at ht
    exact hf k hk j n ht
  | quarantined => exact h.quarantined hf
  | kept x => exact fun hx ↦ h.quarantined (hf hx)
  | supUnjoined => exact ⟨hf.1, h.supJoined.trans hf.2⟩
  | supHelper k =>
    simp only [Fact.Holds, h.helpers, h.target]
    exact hf
  | supCollected => exact h.joins _ hf
  | settled i =>
    refine ⟨h.supJoined.trans hf.1, fun j hj ↦ ?_⟩
    rw [h.joined hf.1]
    exact (hf.2 j hj).imp_right h.quarantined
  | unjoined i | joined i => exact ⟨h.supJoined.trans hf.1, (h.joined hf.1 i).trans hf.2⟩
  | joinedOrQuarantined i =>
    refine ⟨h.supJoined.trans hf.1, ?_⟩
    rw [h.joined hf.1]
    exact hf.2.imp_right h.quarantined
  | notQuarantined i =>
    refine ⟨h.supJoined.trans hf.1, ?_⟩
    rcases h.state hf.1 i with he | ⟨he, -⟩ | ⟨he, -⟩ <;> rw [he]
    · exact hf.2
    · decide
    · decide
  | notStarting i =>
    refine ⟨h.supJoined.trans hf.1, ?_⟩
    rcases h.state hf.1 i with he | ⟨he, -⟩ | ⟨he, -⟩ <;> rw [he]
    · exact hf.2
    · decide
    · decide
  | leftOrLate d i =>
    refine ⟨h.supJoined.trans hf.1, ?_⟩
    rw [h.cur hf.1]
    rcases hf.2 with hd | ⟨hst, hend⟩
    · exact Or.inl (hd.trans h.clock)
    · refine Or.inr ⟨?_, h.ended _ _ hend⟩
      rcases h.state hf.1 i with he | ⟨-, hfresh⟩ | ⟨he, -⟩
      · rwa [he]
      · rw [hend] at hfresh
        cases hfresh
      · exact Or.inl he
  | ended i =>
    refine ⟨h.supJoined.trans hf.1, ?_⟩
    rw [h.cur hf.1]
    exact h.ended _ _ hf.2
  | endedOrLate d i =>
    refine ⟨h.supJoined.trans hf.1, ?_⟩
    rw [h.cur hf.1]
    exact hf.2.imp (h.ended _ _) (fun hd ↦ hd.trans h.clock)
  | harmless d i =>
    refine ⟨h.supJoined.trans hf.1, ?_⟩
    rw [h.cur hf.1]
    rcases hf.2 with hend | hd | ⟨hst, hup⟩
    · exact Or.inl (h.ended _ _ hend)
    · exact Or.inr (Or.inl (hd.trans h.clock))
    · -- a quarantined thread that has started can only return
      rcases h.state hf.1 i with he | ⟨-, hfresh⟩ | ⟨-, hend⟩
      · exact Or.inr (Or.inr ⟨he.trans hst, h.begun _ _ hup⟩)
      · exact absurd hfresh hup
      · exact Or.inl hend
  | helper k i =>
    refine ⟨h.supJoined.trans hf.1, ?_⟩
    rw [h.helpers, h.target, h.handle hf.1]
    exact hf.2
  | collected i =>
    refine ⟨h.supJoined.trans hf.1, ?_⟩
    rw [h.handle hf.1]
    exact h.joins _ hf.2
  | inRange i | open_ life => exact hf
  | timeUp d => exact hf.trans h.clock
  | final =>
    refine Or.imp h.quarantined ?_ hf
    rintro ⟨hj, hall⟩
    refine ⟨h.supJoined.trans hj, fun i hi ↦ ?_⟩
    rw [h.joined hj]
    exact hall i hi

theorem Known.stable {fs : List Fact} (hf : Known c m T fs) (h : Rely c m m' T T') :
    Known c m' T' fs := fun f hm ↦ (hf f hm).stable h

end Stable

/-! ## The executor's own steps -/

section Own

variable {c : Config} {m m' : Ctl} {T : Crew}

theorem Ctl.Alike.refl (m : Ctl) : m.Alike m where
  state _ := rfl
  joined _ := rfl
  spawned _ := rfl
  late _ := rfl
  joins := rfl
  helpers := rfl
  target := rfl
  box := rfl
  supJoined := rfl
  lifecycle := rfl
  executor := rfl
  quarantined := id
  clock := le_rfl

theorem Ctl.Alike.rely (h : m.Alike m') : Rely c m m' T T where
  executor := h.executor
  helpers := h.helpers
  target := h.target
  late := h.late
  supJoined := h.supJoined
  quarantined := h.quarantined
  clock := h.clock
  joins _ ha := by rw [h.joins]; exact ha
  ended _ _ := id
  begun _ _ := id
  joined _ := h.joined
  spawned _ := h.spawned
  state _ i := Or.inl (h.state i)

theorem Ctl.markQuarantined_alike (m : Ctl) : m.Alike m.markQuarantined :=
  { Ctl.Alike.refl m with quarantined := fun _ ↦ rfl }

/-- A write to one worker that custody does not rest on. -/
theorem Ctl.Alike.setW (m : Ctl) (i : Nat) (f : Worker → Worker)
    (hf : ∀ w, (f w).state = w.state ∧ (f w).joined = w.joined ∧ (f w).spawned = w.spawned ∧
      (f w).late = w.late) : m.Alike (m.setW i f) := by
  have hw : ∀ j, ((m.setW i f).w j).state = (m.w j).state ∧
      ((m.setW i f).w j).joined = (m.w j).joined ∧
      ((m.setW i f).w j).spawned = (m.w j).spawned ∧ ((m.setW i f).w j).late = (m.w j).late := by
    intro j
    by_cases hj : j = i
    · subst hj
      rw [Ctl.setW_self]
      exact hf _
    · rw [Ctl.setW_of_ne _ _ hj]
      exact ⟨rfl, rfl, rfl, rfl⟩
  exact { Ctl.Alike.refl m with
    state := fun j ↦ (hw j).1
    joined := fun j ↦ (hw j).2.1
    spawned := fun j ↦ (hw j).2.2.1
    late := fun j ↦ (hw j).2.2.2 }

theorem Ctl.lockLife_alike {me : Agent} (h : m.lockLife me = some m') : m.Alike m' := by
  simp only [Ctl.lockLife] at h
  split at h
  · cases h
    exact { Ctl.Alike.refl m with }
  · cases h

/-! Where the helper functions lead. -/

theorem known_teardown {x : Exec} (hj : m.supervisorJoined = true) (hl : (Fact.lateBelow 0).Holds c m T)
    (hh : (Fact.helpersBelow 0).Holds c m T) (hx : (Fact.kept x).Holds c m T) :
    Known c m T x.teardown.facts := by
  rw [Exec.teardown]
  split
  · simp only [ShutPc.facts, loopFacts, Known.cons, Known.nil, and_true]
    exact ⟨hl, hh, hj, fun j hj ↦ absurd hj (Nat.not_lt_zero j)⟩
  · rename_i hc
    simp only [ShutPc.facts, Known.cons, Known.nil, and_true]
    exact hx (by simpa using hc)

theorem known_workerHead {x : Exec} {i : Nat} (hk : Known c m T (loopFacts i)) :
    Known c m T (x.workerHead c i).facts := by
  rw [Exec.workerHead]
  split
  · rename_i hi
    exact Known.cons.2 ⟨hi, hk⟩
  · rename_i hi
    simp only [loopFacts, Known.cons, Known.nil, and_true] at hk
    simp only [ShutPc.facts, Known.cons, Known.nil, and_true]
    cases hq : m.quarantined with
    | true => exact Or.inl hq
    | false =>
      refine Or.inr ⟨hk.2.2.1, fun j hj ↦ ?_⟩
      exact (hk.2.2.2 j (by omega)).resolve_right (by simp [hq])

theorem known_lateHead {x : Exec} {i : Nat} (hq : m.quarantined = true) :
    Known c m T (x.lateHead c i).facts := by
  rw [Exec.lateHead]
  split
  · exact Known.cons.2 ⟨hq, .nil⟩
  · exact .nil

/-- Past worker `i` the loop goes on to worker `i + 1`. -/
theorem known_next {i : Nat} (hk : Known c m T (afterFacts i))
    (hj : (m.w i).joined = true ∨ m.quarantined = true) : Known c m T (loopFacts (i + 1)) := by
  simp only [afterFacts, loopFacts, Known.cons, Known.nil, and_true] at hk ⊢
  refine ⟨hk.2.1, hk.2.2.1, hk.2.2.2.1, fun j hlt ↦ ?_⟩
  rcases Nat.lt_succ_iff_lt_or_eq.mp hlt with h | rfl
  · exact hk.2.2.2.2 j h
  · exact hj

theorem known_after {i : Nat} (hi : i < c.nWorkers) (hk : Known c m T (loopFacts i)) :
    Known c m T (afterFacts i) := by
  simp only [afterFacts, loopFacts, Known.cons, Known.nil, and_true] at hk ⊢
  exact ⟨hi, fun j hj ↦ hk.1 j (by omega),
    fun k hlt j n ht ↦ Nat.lt_succ_of_lt (hk.2.1 k hlt j n ht), hk.2.2⟩

theorem closeCall_cases {l : Loc Nat Nat} {i : Nat} {here after p' : ShutPc} {k : Cmd}
    (h : closeCall m l i here after = some (m', p', k)) : m' = m ∧ (p' = here ∨ p' = after) := by
  cases l <;> simp only [closeCall, Option.some.injEq, Prod.mk.injEq, reduceCtorEq] at h
  · exact ⟨h.1.symm, Or.inl h.2.1.symm⟩
  · exact ⟨h.1.symm, Or.inr h.2.1.symm⟩

/-- Knowledge and custody after a step that writes nothing custody rests on. -/
theorem known_alike {fs : List Fact} (h : Custody c m T) (ha : m.Alike m') (hk : Known c m T fs) :
    Custody c m' T ∧ Known c m' T fs := ⟨h.alike ha, hk.stable ha.rely⟩

/-- What is left to know where a thread could not be joined. -/
def JoinFor.given (e : Exec) : JoinFor → List Fact
  | .sup => [.lateBelow 0, .helpersBelow 0]
  | .worker i _ => .harmless e.deadline i :: afterFacts i

theorem JoinFor.timeout_facts (t : JoinFor) (e : Exec) : (t.timeout e).facts = t.given e := by
  cases t <;> rfl

theorem JoinFor.failed_facts (t : JoinFor) (e : Exec) : (t.failed e).facts = t.given e := by
  cases t <;> rfl

theorem known_untried {e : Exec} {t : JoinFor} (hk : Known c m T (ShutPc.joinClock e t).facts) :
    Known c m T (t.given e) := by
  cases t with
  | sup =>
    simp only [ShutPc.facts, JoinFor.given, Known.cons, Known.nil, and_true] at hk ⊢
    refine ⟨hk.2.1, fun j hj ↦ ?_⟩
    rw [show m.helpers = 0 from hk.1] at hj
    exact absurd hj (Nat.not_lt_zero j)
  | worker i late =>
    simp only [ShutPc.facts, Known.cons] at hk
    exact Known.cons.2 ⟨⟨hk.2.1.1, Or.inl hk.2.1.2⟩, known_after hk.2.2.1 hk.2.2.2⟩

theorem known_polled {e : Exec} {t : JoinFor} {b : Nat}
    (hk : Known c m T (ShutPc.joinPoll e t b).facts) : Known c m T (t.given e) := by
  cases t with
  | sup =>
    simp only [ShutPc.facts, JoinFor.given, Known.cons, Known.nil, and_true] at hk ⊢
    exact ⟨hk.1, hk.2.1⟩
  | worker i late =>
    simp only [ShutPc.facts, Known.cons] at hk
    exact Known.cons.2 ⟨⟨hk.2.1.1, Or.inl hk.2.1.2⟩, hk.2.2⟩

/-- The helper has joined the thread. -/
theorem known_joined {e : Exec} {t : JoinFor} {b : Nat} (h : Custody c m T)
    (hbox : m.box b = some 0) (hk : Known c m T (ShutPc.joinPoll e t b).facts) :
    Known c m T (t.ok e).facts := by
  have hone := h.boxed b hbox
  cases t with
  | sup =>
    simp only [ShutPc.facts, Known.cons, Known.nil, and_true] at hk
    simp only [JoinFor.ok, ShutPc.facts, Known.cons, Known.nil, and_true]
    refine ⟨hk.1, hk.2.1, hk.2.2.1, ?_⟩
    rw [hk.2.2.2.2] at hone
    exact hone
  | worker i late =>
    simp only [ShutPc.facts, Known.cons] at hk
    simp only [JoinFor.ok, ShutPc.facts, Known.cons]
    rw [hk.1.2.2] at hone
    exact ⟨⟨hk.1.1, hone⟩, hk.2⟩

theorem known_create {e : Exec} {t : JoinFor} (h : Custody c m T) (hexec : m.executor ≠ none)
    (hk : Known c m T (ShutPc.joinCreate e t).facts) :
    Custody c { m with
      helpers := m.helpers + 1
      target := Function.update m.target m.helpers (t.thread m) } T ∧
    Known c { m with
      helpers := m.helpers + 1
      target := Function.update m.target m.helpers (t.thread m) } T
      (ShutPc.joinPoll e t m.helpers).facts := by
  cases t with
  | sup =>
    simp only [ShutPc.facts, Known.cons, Known.nil, and_true] at hk
    obtain ⟨hno, hlate, hkept, hen, hun⟩ := hk
    have hzero : m.joins .sup ≠ 1 := by
      intro hone
      obtain ⟨b, hb, -⟩ := h.supHelper hone
      rw [show m.helpers = 0 from hno] at hb
      exact Nat.not_lt_zero b hb
    have hnone : ∀ b, ¬ b < m.helpers := fun b hb ↦ by
      rw [show m.helpers = 0 from hno] at hb
      exact Nat.not_lt_zero b hb
    have honce := h.supOnce
    refine ⟨h.addHelper hexec (show m.joins .sup = 0 by omega) (fun b hb ↦ absurd hb (hnone b))
      (Or.inl rfl), ?_⟩
    simp only [ShutPc.facts, Known.cons, Known.nil, and_true]
    refine ⟨hlate, fun b hb j n ht ↦ ?_, hkept, Nat.lt_succ_self _, Function.update_self _ _ _⟩
    rcases Nat.lt_succ_iff_lt_or_eq.mp hb with hlt | rfl
    · exact absurd hlt (hnone b)
    · exact absurd ((Function.update_self _ _ _).symm.trans ht) (by nofun)
  | worker i late =>
    simp only [ShutPc.facts, Known.cons] at hk
    obtain ⟨⟨hs, hun⟩, hend, hi, hl⟩ := hk
    have hbelow := hl (.helpersBelow i) (by simp [loopFacts])
    have hzero : m.joins (m.handle i) = 0 := by
      refine ((h.post i).joins_eq _).resolve_right fun hone ↦ ?_
      rcases h.record_done hs hone with hj | ⟨b, hb, ht⟩
      · rw [hun] at hj
        cases hj
      · exact Nat.lt_irrefl i (hbelow b hb i _ ht)
    refine ⟨h.addHelper hexec hzero (fun b hb ht ↦ Nat.lt_irrefl i (hbelow b hb i _ ht))
      (Or.inr ⟨i, hi, rfl, hs⟩), ?_⟩
    have hafter := known_after hi hl
    simp only [ShutPc.facts, afterFacts, Known.cons, Known.nil, and_true] at hafter ⊢
    refine ⟨⟨hs, Nat.lt_succ_self _, Function.update_self _ _ _⟩, hend, hi, hafter.2.1,
      fun b hb j n ht ↦ ?_, hafter.2.2.2⟩
    rcases Nat.lt_succ_iff_lt_or_eq.mp hb with hlt | rfl
    · exact hafter.2.2.1 b hlt j n ((Function.update_of_ne hlt.ne _ _).symm.trans ht)
    · have he : m.handle i = .worker j n := (Function.update_self _ _ _).symm.trans ht
      rw [Ctl.handle, Agent.worker.injEq] at he
      omega

/-! Writes to the worker whose turn it is. -/

theorem known_after_setW {i : Nat} {f : Worker → Worker} (hk : Known c m T (afterFacts i)) :
    Known c (m.setW i f) T (afterFacts i) := by
  simp only [afterFacts, Known.cons, Known.nil, and_true] at hk ⊢
  refine ⟨hk.1, fun j hj ↦ ?_, hk.2.2.1, hk.2.2.2.1, fun j hj ↦ ?_⟩
  · rw [Ctl.setW_of_ne _ _ (show j ≠ i by omega)]
    exact hk.2.1 j hj
  · rw [Ctl.setW_of_ne _ _ (show j ≠ i by omega)]
    exact hk.2.2.2.2 j hj

theorem custody_note (h : Custody c m T) {i : Nat} {f : Worker → Worker}
    (hs : m.supervisorJoined = true) (hexec : m.executor ≠ none)
    (hpost : Post (f (m.w i)) (T.stage i) (fun k ↦ m.joins (.worker i k)))
    (hspawned : (f (m.w i)).spawned = (m.w i).spawned)
    (hjoined : (m.w i).joined = true → (f (m.w i)).joined = true) :
    Custody c (m.setW i f) T :=
  h.touch i f (Or.inl rfl) rfl (fun _ _ ↦ rfl) hspawned hpost
    (fun hone ↦ (h.record i hone).imp_left hjoined) (fun _ _ ho ↦ ho)
    (fun g hg ↦ by rw [h.no_fact_of_supDone (h.supDone hs)] at hg; cases hg)
    (fun hn ↦ absurd hn hexec) (fun _ ↦ hjoined)

/-- Shutdown quarantines a worker, whatever the supervisor is doing. -/
theorem custody_late (h : Custody c m T) {i : Nat} (hexec : m.executor ≠ none) :
    Custody c (m.setW i ({ · with state := .quarantined, late := true })) T := by
  refine h.touch i _ (Or.inl rfl) rfl (fun _ _ ↦ rfl) rfl (h.post i).quarantineLate (h.record i)
    (fun _ _ ho ↦ ho) (fun g hg ↦ ?_) (fun hn ↦ absurd hn hexec) (fun _ hj ↦ hj)
  have hold := h.sup g hg
  have hhandle : (m.setW i ({ · with state := .quarantined, late := true })).handle = m.handle := by
    funext j
    by_cases hj : j = i
    · subst hj
      simp only [Ctl.handle, Ctl.setW_self]
    · simp only [Ctl.handle, Ctl.setW_of_ne _ _ hj]
  cases g with
  | unjoined j | collected j | joined j | up j | launching j =>
    simp only [SupFact.Holds, hhandle] at hold ⊢
    by_cases hj : j = i
    · subst hj
      rw [Ctl.setW_self]
      first | exact hold | exact ⟨hold.1, hold.2.1, Or.inr ⟨rfl, rfl⟩⟩
    · rw [Ctl.setW_of_ne _ _ hj]
      exact hold

theorem known_late {d i : Nat} (hk : Known c m T (.harmless d i :: afterFacts i)) :
    Known c (m.setW i ({ · with state := .quarantined, late := true })) T
      (.harmless d i :: afterFacts i) := by
  obtain ⟨hh, ha⟩ := Known.cons.1 hk
  refine Known.cons.2 ⟨⟨hh.1, ?_⟩, known_after_setW ha⟩
  rw [Ctl.setW_self]
  refine hh.2.imp_right (Or.imp_right fun hq ↦ ⟨rfl, hq.2⟩)

variable {me : Agent} {l : Loc Nat Nat} {x : Choice} {active : Int} {p p' : ShutPc} {k : Cmd}

/-- What a shutdown call knows carries over its own steps, and these keep custody. -/
theorem ShutPc.next_known (h : Custody c m T) (hk : Known c m T p.facts)
    (hexec : p.executes = true → m.executor ≠ none)
    (hn : p.next c m active me l x = some (m', p', k)) :
    Custody c m' T ∧ Known c m' T p'.facts := by
  cases p with
  | done rc => cases hn
  | start =>
    simp only [ShutPc.next, Option.some.injEq, Prod.mk.injEq] at hn
    obtain ⟨rfl, rfl, -⟩ := hn
    refine ⟨h, ?_⟩
    cases hlife : m.lifecycle <;> simp [ShutPc.facts, Fact.Holds]
  | obsAborts | obsQuarantined | waitAborts | waitQuarantined =>
    simp only [ShutPc.next, Option.some.injEq, Prod.mk.injEq] at hn
    obtain ⟨rfl, rfl, -⟩ := hn
    refine ⟨h, ?_⟩
    first | exact .nil | (split <;> exact .nil)
  | cas life =>
    simp only [ShutPc.next] at hn
    split at hn
    · rename_i hlife
      simp only [Option.some.injEq, Prod.mk.injEq] at hn
      obtain ⟨rfl, rfl, -⟩ := hn
      obtain ⟨hh, hl⟩ := h.calm (h.running (hlife ▸ hk _ (List.mem_singleton_self _)))
      exact ⟨h.setExecutor, Known.cons.2 ⟨hh, Known.cons.2 ⟨fun j _ ↦ hl j, .nil⟩⟩⟩
    · simp only [Option.some.injEq, Prod.mk.injEq] at hn
      obtain ⟨rfl, rfl, -⟩ := hn
      exact ⟨h, .nil⟩
  | waitLock | waitRelock | quiesceLock | lifeLock e last =>
    simp only [ShutPc.next, Option.map_eq_some_iff, Prod.mk.injEq] at hn
    obtain ⟨m₁, hm, rfl, rfl, -⟩ := hn
    first | exact known_alike h (Ctl.lockLife_alike hm) hk
          | (cases last <;> exact known_alike h (Ctl.lockLife_alike hm) hk)
  | waitInc | waitDec v | waitBroadcast v | waitUnlock v | quiesceBroadcast | quiesceUnlock =>
    simp only [ShutPc.next, Option.some.injEq, Prod.mk.injEq] at hn
    obtain ⟨rfl, rfl, -⟩ := hn
    exact known_alike h { Ctl.Alike.refl m with } hk
  | waitLife =>
    simp only [ShutPc.next] at hn
    split at hn <;> simp only [Option.some.injEq, Prod.mk.injEq] at hn <;> obtain ⟨rfl, rfl, -⟩ := hn
    · exact ⟨h, .nil⟩
    · exact known_alike h { Ctl.Alike.refl m with } .nil
  | waitBlocked ticket =>
    simp only [ShutPc.next, Option.ite_none_right_eq_some, Option.some.injEq, Prod.mk.injEq] at hn
    obtain ⟨-, rfl, rfl, -⟩ := hn
    exact ⟨h, .nil⟩
  | now =>
    simp only [ShutPc.next, Option.some.injEq, Prod.mk.injEq] at hn
    obtain ⟨rfl, rfl, -⟩ := hn
    exact ⟨h, hk⟩
  | activeLoop d | activeClock d =>
    simp only [ShutPc.next, Option.some.injEq, Prod.mk.injEq] at hn
    obtain ⟨rfl, rfl, -⟩ := hn
    refine ⟨h, ?_⟩
    split <;> exact hk
  | activeTest d =>
    simp only [ShutPc.next, Option.some.injEq, Prod.mk.injEq] at hn
    obtain ⟨rfl, rfl, -⟩ := hn
    refine ⟨h, ?_⟩
    split
    · exact hk
    · simp only [ShutPc.facts, Known.cons, Known.nil, and_true] at hk ⊢
      exact ⟨hk.1, hk.2, fun hc ↦ by cases hc⟩
  | timeoutClose e i =>
    simp only [ShutPc.next] at hn
    split at hn
    · obtain ⟨rfl, rfl | rfl⟩ := closeCall_cases hn <;> exact ⟨h, hk⟩
    · simp only [Option.some.injEq, Prod.mk.injEq] at hn
      obtain ⟨rfl, rfl, -⟩ := hn
      exact ⟨h, hk⟩
  | supStop e =>
    simp only [ShutPc.next, Option.some.injEq, Prod.mk.injEq] at hn
    obtain ⟨rfl, rfl, -⟩ := hn
    exact known_alike h { Ctl.Alike.refl m with } hk
  | lifeStore e last =>
    simp only [ShutPc.next, Option.some.injEq, Prod.mk.injEq] at hn
    obtain ⟨rfl, rfl, -⟩ := hn
    cases last with
    | false =>
      refine ⟨h.setLifecycle (Or.inl rfl) (fun hl ↦ by cases hl), ?_⟩
      simp only [ShutPc.facts, Known.cons, Known.nil, and_true] at hk ⊢
      exact hk
    | true =>
      refine ⟨h.setLifecycle (Or.inr rfl) fun _ ↦ ?_, .nil⟩
      exact hk .final (List.mem_singleton_self _)
  | lifeBroadcast e last =>
    simp only [ShutPc.next, Option.some.injEq, Prod.mk.injEq] at hn
    obtain ⟨rfl, rfl, -⟩ := hn
    cases last <;> exact known_alike h { Ctl.Alike.refl m with } hk
  | lifeUnlock e last =>
    simp only [ShutPc.next, Option.some.injEq, Prod.mk.injEq] at hn
    obtain ⟨rfl, rfl, -⟩ := hn
    cases last
    · exact known_alike h { Ctl.Alike.refl m with } hk
    · exact known_alike h { Ctl.Alike.refl m with } .nil
  | supJoinedLoad e =>
    simp only [ShutPc.next, Option.some.injEq, Prod.mk.injEq] at hn
    obtain ⟨rfl, rfl, -⟩ := hn
    refine ⟨h, ?_⟩
    simp only [ShutPc.facts, Known.cons, Known.nil, and_true] at hk
    split
    · rename_i hs
      simp only [ShutPc.facts, Known.cons, Known.nil, and_true]
      exact ⟨hk.1, hk.2.1, hk.2.2, hs.1, by simpa using hs.2⟩
    · rename_i hs
      refine known_teardown ?_ hk.2.1 (fun j hj ↦ ?_) hk.2.2
      · cases he : c.enableSupervisor with
        | false => exact (h.supAbsent he).1
        | true => simpa [he] using hs
      · rw [show m.helpers = 0 from hk.1] at hj
        exact absurd hj (Nat.not_lt_zero j)
  | supClock e | supPhase e | supAlive e =>
    simp only [ShutPc.next, Option.some.injEq, Prod.mk.injEq] at hn
    obtain ⟨rfl, rfl, -⟩ := hn
    refine ⟨h, ?_⟩
    repeat' split
    all_goals exact hk
  | supPhase2 e | supAlive2 e =>
    simp only [ShutPc.next, Option.some.injEq, Prod.mk.injEq] at hn
    obtain ⟨rfl, rfl, -⟩ := hn
    refine ⟨h, ?_⟩
    have hmark : Known c m T (ShutPc.mark e .sup).facts := by
      simp only [ShutPc.facts, MarkFor.facts, Known.cons, Known.nil, and_true] at hk ⊢
      refine ⟨hk.2.1, fun j hj ↦ ?_⟩
      rw [show m.helpers = 0 from hk.1] at hj
      exact absurd hj (Nat.not_lt_zero j)
    repeat' split
    all_goals first | exact hk | exact hmark
  | supSetJoined e =>
    simp only [ShutPc.next, Option.some.injEq, Prod.mk.injEq] at hn
    obtain ⟨rfl, rfl, -⟩ := hn
    simp only [ShutPc.facts, Known.cons, Known.nil, and_true] at hk
    exact ⟨h.setSupJoined hk.2.2.2, known_teardown rfl hk.1 hk.2.1 hk.2.2.1⟩
  | joinClock e t | joinPollClock e t b =>
    simp only [ShutPc.next, Option.some.injEq, Prod.mk.injEq] at hn
    obtain ⟨rfl, rfl, -⟩ := hn
    refine ⟨h, ?_⟩
    split
    · rw [JoinFor.timeout_facts]
      first
        | exact known_untried hk
        | exact known_polled (b := b) (by cases t <;> exact hk)
    · cases t <;> exact hk
  | joinCreate e t =>
    cases x with
    | go =>
      simp only [ShutPc.next, Option.some.injEq, Prod.mk.injEq] at hn
      obtain ⟨rfl, rfl, -⟩ := hn
      exact known_create h (hexec rfl) hk
    | rc n =>
      simp only [ShutPc.next, Option.ite_none_right_eq_some, Option.some.injEq,
        Prod.mk.injEq] at hn
      obtain ⟨-, rfl, rfl, -⟩ := hn
      rw [JoinFor.failed_facts]
      exact ⟨h, known_untried (by cases t <;> exact hk)⟩
    | _ => cases hn
  | joinPoll e t b =>
    simp only [ShutPc.next, Option.some.injEq, Prod.mk.injEq] at hn
    obtain ⟨rfl, rfl, -⟩ := hn
    refine ⟨h, ?_⟩
    split
    · cases t <;> exact hk
    · rename_i rc hbox
      split
      · rename_i hrc
        subst hrc
        exact known_joined h hbox hk
      · rw [JoinFor.failed_facts]
        exact known_polled hk
  | closeAll e i =>
    simp only [ShutPc.next] at hn
    split at hn
    · obtain ⟨rfl, rfl | rfl⟩ := closeCall_cases hn <;> exact ⟨h, hk⟩
    · simp only [Option.some.injEq, Prod.mk.injEq] at hn
      obtain ⟨rfl, rfl, -⟩ := hn
      exact ⟨h, hk⟩
  | closeFrames e =>
    simp only [ShutPc.next, Option.some.injEq, Prod.mk.injEq] at hn
    obtain ⟨rfl, rfl, -⟩ := hn
    exact known_alike h { Ctl.Alike.refl m with } (known_workerHead hk)
  | workerJoined e i =>
    simp only [ShutPc.next, Option.some.injEq, Prod.mk.injEq] at hn
    obtain ⟨rfl, rfl, -⟩ := hn
    refine ⟨h, ?_⟩
    split
    · rename_i hj
      have hend := (h.post i).after _ ((h.post i).joined hj)
      obtain ⟨hi, hk⟩ := Known.cons.1 hk
      have hs := (hk (.settled i) (by simp [loopFacts])).1
      simp only [ShutPc.facts, Known.cons]
      exact ⟨⟨hs, Or.inl hj⟩, ⟨hs, Or.inl hend⟩, known_after hi hk⟩
    · exact hk
  | workerState e i =>
    simp only [ShutPc.next, Option.some.injEq, Prod.mk.injEq] at hn
    obtain ⟨rfl, rfl, -⟩ := hn
    refine ⟨h, ?_⟩
    obtain ⟨hi, hl⟩ := Known.cons.1 hk
    have hs := (hl (.settled i) (by simp [loopFacts])).1
    split
    · rename_i hq
      have hlate := hl (.lateBelow i) (by simp [loopFacts]) i le_rfl
      have hup := ((h.post i).quarantined hq).resolve_right (by simp [hlate])
      simp only [ShutPc.facts, MarkFor.facts, Known.cons]
      exact ⟨⟨hs, Or.inr (Or.inr ⟨hq, hup⟩)⟩, known_after hi hl⟩
    · rename_i hq
      exact Known.cons.2 ⟨⟨hs, hq⟩, hk⟩
  | waitStarting e i =>
    simp only [ShutPc.next, Option.some.injEq, Prod.mk.injEq] at hn
    obtain ⟨rfl, rfl, -⟩ := hn
    refine ⟨h, ?_⟩
    split
    · exact hk
    · rename_i hst
      obtain ⟨hq, hl⟩ := Known.cons.1 hk
      exact Known.cons.2 ⟨⟨hq.1, hq.2, hst⟩, hl⟩
  | waitRunning e i =>
    simp only [ShutPc.next, Option.some.injEq, Prod.mk.injEq] at hn
    obtain ⟨rfl, rfl, -⟩ := hn
    refine ⟨h, ?_⟩
    obtain ⟨hq, hl⟩ := Known.cons.1 hk
    split
    · exact Known.cons.2 ⟨⟨hq.1, hq.2.1⟩, hl⟩
    · rename_i hrun
      have hleft : (m.w i).state = .exited ∨ (m.w i).state = .joined := by
        have hne := hq.2
        cases hst : (m.w i).state <;> simp_all
      exact Known.cons.2 ⟨⟨hq.1, Or.inr ⟨hleft, (h.post i).exited hleft⟩⟩, hl⟩
  | waitClock e i =>
    simp only [ShutPc.next, Option.some.injEq, Prod.mk.injEq] at hn
    obtain ⟨rfl, rfl, -⟩ := hn
    refine ⟨h, ?_⟩
    obtain ⟨hq, hl⟩ := Known.cons.1 hk
    split
    · rename_i hd
      exact Known.cons.2 ⟨⟨hq.1, Or.inl hd⟩, hl⟩
    · exact hk
  | workerState2 e i =>
    simp only [ShutPc.next, Option.some.injEq, Prod.mk.injEq] at hn
    obtain ⟨rfl, rfl, -⟩ := hn
    refine ⟨h, ?_⟩
    obtain ⟨hq, hl⟩ := Known.cons.1 hk
    split
    · rename_i hleft
      exact Known.cons.2 ⟨⟨hq.1, (h.post i).exited hleft⟩, hl⟩
    · rename_i hleft
      exact Known.cons.2 ⟨hq.2.resolve_right fun hc ↦ hleft hc.1, hl⟩
  | exitedJoined e i late =>
    simp only [ShutPc.next, Option.some.injEq, Prod.mk.injEq] at hn
    obtain ⟨rfl, rfl, -⟩ := hn
    refine ⟨h, ?_⟩
    obtain ⟨hend, hl⟩ := Known.cons.1 hk
    obtain ⟨hi, hl'⟩ := Known.cons.1 hl
    split
    · rename_i hj
      have hknown : Known c m T (.joinedOrQuarantined i :: .harmless e.deadline i :: afterFacts i) :=
        Known.cons.2 ⟨⟨hend.1, Or.inl hj⟩,
          Known.cons.2 ⟨⟨hend.1, Or.inl hend.2⟩, known_after hi hl'⟩⟩
      split <;> exact hknown
    · rename_i hj
      exact Known.cons.2 ⟨⟨hend.1, by simpa using hj⟩, hk⟩
  | setJoined e i late =>
    simp only [ShutPc.next, Option.some.injEq, Prod.mk.injEq] at hn
    obtain ⟨rfl, rfl, -⟩ := hn
    simp only [ShutPc.facts, Known.cons] at hk
    obtain ⟨hcol, hend, ha⟩ := hk
    refine ⟨custody_note h hcol.1 (hexec rfl) ((h.post i).setJoined hcol.2) rfl (fun _ ↦ rfl), ?_⟩
    refine Known.cons.2 ⟨⟨hcol.1, ?_⟩, Known.cons.2 ⟨⟨hcol.1, ?_⟩, known_after_setW ha⟩⟩ <;>
      rw [Ctl.setW_self]
    exact hend.2
  | setStateJoined e i late =>
    simp only [ShutPc.next, Option.some.injEq, Prod.mk.injEq] at hn
    obtain ⟨rfl, rfl, -⟩ := hn
    simp only [ShutPc.facts, Known.cons] at hk
    obtain ⟨hj, hend, ha⟩ := hk
    refine ⟨custody_note h hj.1 (hexec rfl) ((h.post i).stateJoined hend.2) rfl id, ?_⟩
    have hknown : Known c (m.setW i ({ · with state := .joined })) T
        (.joinedOrQuarantined i :: .harmless e.deadline i :: afterFacts i) := by
      refine Known.cons.2 ⟨⟨hj.1, ?_⟩, Known.cons.2 ⟨⟨hj.1, ?_⟩, known_after_setW ha⟩⟩ <;>
        rw [Ctl.setW_self]
      · exact Or.inl hj.2
      · exact Or.inl hend.2
    split <;> exact hknown
  | setQuarantined e i =>
    simp only [ShutPc.next, Option.some.injEq, Prod.mk.injEq] at hn
    obtain ⟨rfl, rfl, -⟩ := hn
    obtain ⟨hq, hk⟩ := Known.cons.1 hk
    exact ⟨custody_late h (hexec rfl), Known.cons.2 ⟨hq, known_late hk⟩⟩
  | stopStore e i =>
    simp only [ShutPc.next, Option.some.injEq, Prod.mk.injEq] at hn
    obtain ⟨rfl, rfl, -⟩ := hn
    exact known_alike h (.setW m i _ fun _ ↦ ⟨rfl, rfl, rfl, rfl⟩) hk
  | stopClose e i =>
    obtain ⟨rfl, rfl | rfl⟩ := closeCall_cases hn <;> exact ⟨h, hk⟩
  | graceNow e i =>
    simp only [ShutPc.next, Option.some.injEq, Prod.mk.injEq] at hn
    obtain ⟨rfl, rfl, -⟩ := hn
    exact ⟨h, hk⟩
  | graceRunning e i u | graceStarting e i u | graceClock e i u | graceDeadline e i u =>
    simp only [ShutPc.next, Option.some.injEq, Prod.mk.injEq] at hn
    obtain ⟨rfl, rfl, -⟩ := hn
    refine ⟨h, ?_⟩
    split <;> exact hk
  | graceExited e i =>
    simp only [ShutPc.next, Option.some.injEq, Prod.mk.injEq] at hn
    obtain ⟨rfl, rfl, -⟩ := hn
    refine ⟨h, ?_⟩
    split
    · rename_i hst
      obtain ⟨hi, hl⟩ := Known.cons.1 (Known.cons.1 hk).2
      have hs := (hl (.settled i) (by simp [loopFacts])).1
      exact Known.cons.2 ⟨⟨hs, (h.post i).exited (Or.inl hst)⟩, (Known.cons.1 hk).2⟩
    · exact hk
  | stuckStore e i =>
    simp only [ShutPc.next, Option.some.injEq, Prod.mk.injEq] at hn
    obtain ⟨rfl, rfl, -⟩ := hn
    obtain ⟨ht, hk⟩ := Known.cons.1 hk
    obtain ⟨hi, hl⟩ := Known.cons.1 hk
    have hs := (hl (.settled i) (by simp [loopFacts])).1
    exact ⟨custody_late h (hexec rfl),
      known_late (Known.cons.2 ⟨⟨hs, Or.inr (Or.inl ht)⟩, known_after hi hl⟩)⟩
  | mark e k =>
    simp only [ShutPc.next, Option.some.injEq, Prod.mk.injEq] at hn
    obtain ⟨rfl, rfl, -⟩ := hn
    obtain ⟨hc, hk⟩ := known_alike h m.markQuarantined_alike hk
    exact ⟨hc, Known.cons.2 ⟨rfl, hk⟩⟩
  | markFrames e k =>
    simp only [ShutPc.next, Option.some.injEq, Prod.mk.injEq] at hn
    obtain ⟨rfl, rfl, -⟩ := hn
    have ha : m.Alike m.closeFrames := { Ctl.Alike.refl m with }
    obtain ⟨hq, hk⟩ := Known.cons.1 hk
    refine known_alike h ha ?_
    cases k with
    | active | sup | joinLate i => exact Known.cons.2 ⟨hq, hk⟩
    | seen i | joinFailed i => exact Known.cons.2 ⟨hq, hk⟩
    | stuck i =>
      obtain ⟨hh, hk⟩ := Known.cons.1 hk
      exact Known.cons.2 ⟨⟨hh.1, Or.inr hq⟩, Known.cons.2 ⟨hh, hk⟩⟩
    | late | final => exact Known.cons.2 ⟨Or.inl hq, .nil⟩
  | noteAbort e k =>
    simp only [ShutPc.next, Option.some.injEq, Prod.mk.injEq] at hn
    obtain ⟨rfl, rfl, -⟩ := hn
    refine known_alike h { Ctl.Alike.refl m with } ?_
    cases k with
    | active =>
      simp only [ShutPc.facts, MarkFor.facts, Known.cons, Known.nil, and_true] at hk
      simp only [MarkFor.noted, ShutPc.facts, Known.cons, Known.nil, and_true]
      exact ⟨hk.2.1, hk.2.2, fun _ ↦ hk.1⟩
    | sup => exact Known.cons.2 ⟨hk .quarantined (List.mem_cons_self ..), .nil⟩
    | seen i | joinLate i | joinFailed i =>
      obtain ⟨hq, hk⟩ := Known.cons.1 hk
      exact Known.cons.2 ⟨⟨(Known.cons.1 hk).1.1, Or.inr hq⟩, hk⟩
    | stuck i => exact hk
    | late | final => exact Known.cons.2 ⟨Or.inl (hk .quarantined (List.mem_cons_self ..)), .nil⟩
  | drainState e i =>
    simp only [ShutPc.next, Option.some.injEq, Prod.mk.injEq] at hn
    obtain ⟨rfl, rfl, -⟩ := hn
    refine ⟨h, ?_⟩
    simp only [ShutPc.facts, Known.cons] at hk
    obtain ⟨hj, hh, ha⟩ := hk
    split
    · exact known_workerHead (known_next ha hj.2)
    · rename_i hq
      refine Known.cons.2 ⟨hj, Known.cons.2 ⟨⟨hh.1, ?_⟩, ha⟩⟩
      exact hh.2.imp_right fun hd ↦ hd.resolve_right fun hc ↦ hq hc.1
  | drainClock e i =>
    simp only [ShutPc.next, Option.some.injEq, Prod.mk.injEq] at hn
    obtain ⟨rfl, rfl, -⟩ := hn
    refine ⟨h, ?_⟩
    simp only [ShutPc.facts, Known.cons] at hk
    obtain ⟨hj, hh, ha⟩ := hk
    split
    · rename_i hd
      exact Known.cons.2 ⟨hj, Known.cons.2
        ⟨⟨hh.1, hh.2.resolve_right (Nat.not_le.mpr hd)⟩, ha⟩⟩
    · exact known_workerHead (known_next ha hj.2)
  | drainPop e i =>
    have hcases : m' = m ∧ (p' = .drainPop e i ∨ (∃ q, p' = .drainCount e i q) ∨
        p' = e.workerHead c (i + 1)) := by
      cases l <;> simp only [ShutPc.next] at hn <;> grind
    obtain ⟨rfl, rfl | ⟨q, rfl⟩ | rfl⟩ := hcases
    · exact ⟨h, hk⟩
    · exact ⟨h, hk⟩
    · simp only [ShutPc.facts, Known.cons] at hk
      exact ⟨h, known_workerHead (known_next hk.2.2 hk.1.2)⟩
  | drainCount e i q =>
    simp only [ShutPc.next, Option.some.injEq, Prod.mk.injEq] at hn
    obtain ⟨rfl, rfl, -⟩ := hn
    refine known_alike h { Ctl.Alike.refl m with } ?_
    simp only [ShutPc.facts, Known.cons] at hk ⊢
    exact ⟨hk.1, ⟨hk.2.1.1, Or.inl hk.2.1.2⟩, hk.2.2⟩
  | lateClose e i =>
    simp only [ShutPc.next] at hn
    split at hn
    · obtain ⟨rfl, rfl | rfl⟩ := closeCall_cases hn <;> exact ⟨h, hk⟩
    · simp only [Option.some.injEq, Prod.mk.injEq] at hn
      obtain ⟨rfl, rfl, -⟩ := hn
      exact ⟨h, .nil⟩
  | lateRunning e i =>
    simp only [ShutPc.next, Option.some.injEq, Prod.mk.injEq] at hn
    obtain ⟨rfl, rfl, -⟩ := hn
    refine ⟨h, ?_⟩
    split <;> exact hk
  | lateStarting e i =>
    simp only [ShutPc.next, Option.some.injEq, Prod.mk.injEq] at hn
    obtain ⟨rfl, rfl, -⟩ := hn
    refine ⟨h, ?_⟩
    split
    · exact hk
    · exact known_lateHead (hk .quarantined (List.mem_singleton_self _))
  | lateStore e i =>
    simp only [ShutPc.next, Option.some.injEq, Prod.mk.injEq] at hn
    obtain ⟨rfl, rfl, -⟩ := hn
    exact ⟨custody_late h (hexec rfl), known_lateHead (hk .quarantined (List.mem_singleton_self _))⟩
  | anyQuarantined e i =>
    simp only [ShutPc.next] at hn
    split at hn <;> simp only [Option.some.injEq, Prod.mk.injEq] at hn <;> obtain ⟨rfl, rfl, -⟩ := hn
    · refine ⟨h, ?_⟩
      split
      · exact .nil
      · exact hk
    · exact ⟨h, hk⟩
  | anyActive e =>
    simp only [ShutPc.next, Option.some.injEq, Prod.mk.injEq] at hn
    obtain ⟨rfl, rfl, -⟩ := hn
    refine ⟨h, ?_⟩
    split
    · exact .nil
    · exact hk
  | persistLoad e =>
    simp only [ShutPc.next, Option.some.injEq, Prod.mk.injEq] at hn
    obtain ⟨rfl, rfl, -⟩ := hn
    refine ⟨h, ?_⟩
    split <;> exact hk
  | persistCas e =>
    simp only [ShutPc.next, Option.some.injEq, Prod.mk.injEq] at hn
    obtain ⟨rfl, rfl, -⟩ := hn
    exact known_alike h { Ctl.Alike.refl m with } hk
  | tailAborts e | tailQuarantined =>
    simp only [ShutPc.next, Option.some.injEq, Prod.mk.injEq] at hn
    obtain ⟨rfl, rfl, -⟩ := hn
    refine ⟨h, ?_⟩
    first | exact .nil | (split <;> exact .nil)

theorem ShutPc.next_executor (hn : p.next c m active me l x = some (m', p', k)) :
    m'.executor = m.executor ∨
    (∃ life, p = .cas life ∧ m.lifecycle = life ∧ p' = .quiesceLock ∧
      m' = { m with lifecycle := .quiescing, executor := some me }) := by
  cases p with
  | timeoutClose e i | closeAll e i | lateClose e i =>
    left
    simp only [ShutPc.next] at hn
    split at hn
    · rw [(closeCall_cases hn).1]
    · cases hn
      rfl
  | stopClose e i => exact Or.inl (by rw [(closeCall_cases hn).1])
  | cas life =>
    simp only [ShutPc.next] at hn
    split at hn
    · rename_i hlife
      obtain ⟨rfl, rfl, rfl⟩ := outcome_inj hn
      exact Or.inr ⟨life, rfl, hlife, rfl, rfl⟩
    · cases hn
      exact Or.inl rfl
  | waitLock | waitRelock | quiesceLock | lifeLock e last =>
    left
    simp only [ShutPc.next, Option.map_eq_some_iff, Prod.mk.injEq] at hn
    obtain ⟨m₁, hm, rfl, -, -⟩ := hn
    exact (Ctl.lockLife_alike hm).executor
  | drainPop e i =>
    left
    cases l <;> simp only [ShutPc.next] at hn <;> grind
  | joinCreate e t =>
    left
    cases x <;> simp only [ShutPc.next] at hn <;> grind
  | waitLife | waitBlocked ticket | anyQuarantined e i =>
    left
    simp only [ShutPc.next] at hn
    split at hn <;> cases hn <;> rfl
  | done rc => cases hn
  | _ =>
    left
    obtain ⟨rfl, rfl, rfl⟩ := outcome_inj hn
    rfl

/-- A call that has not won the compare-exchange changes nothing but by winning it. -/
theorem ShutPc.next_observer (hp : p.executes = false)
    (hn : p.next c m active me l x = some (m', p', k)) :
    (p'.executes = false ∧ m.Alike m') ∨
    (∃ life, p = .cas life ∧ m.lifecycle = life ∧ p' = .quiesceLock ∧
      m' = { m with lifecycle := .quiescing, executor := some me }) := by
  cases p with
  | cas life =>
    simp only [ShutPc.next] at hn
    split at hn
    · rename_i hlife
      obtain ⟨rfl, rfl, rfl⟩ := outcome_inj hn
      exact Or.inr ⟨life, rfl, hlife, rfl, rfl⟩
    · cases hn
      exact Or.inl ⟨rfl, .refl m⟩
  | waitLock | waitRelock =>
    left
    simp only [ShutPc.next, Option.map_eq_some_iff, Prod.mk.injEq] at hn
    obtain ⟨m₁, hm, rfl, rfl, -⟩ := hn
    exact ⟨rfl, Ctl.lockLife_alike hm⟩
  | start =>
    obtain ⟨rfl, rfl, rfl⟩ := outcome_inj hn
    refine Or.inl ⟨?_, .refl m⟩
    cases m.lifecycle <;> rfl
  | obsAborts | waitAborts =>
    obtain ⟨rfl, rfl, rfl⟩ := outcome_inj hn
    refine Or.inl ⟨?_, .refl m⟩
    split <;> rfl
  | waitLife | waitBlocked ticket =>
    left
    simp only [ShutPc.next] at hn
    split at hn <;> cases hn <;> exact ⟨rfl, { Ctl.Alike.refl m with }⟩
  | done rc => cases hn
  | waitInc | waitDec v | waitBroadcast v | waitUnlock v | obsQuarantined | waitQuarantined =>
    obtain ⟨rfl, rfl, rfl⟩ := outcome_inj hn
    exact Or.inl ⟨rfl, { Ctl.Alike.refl m with }⟩
  | _ => cases hp

end Own

end Awp
