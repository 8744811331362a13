import AsyncWorkerPool.Pool.Keyed
import AsyncWorkerPool.Pool.Stranded

/-!
# Absorb — when a quarantine lasts

`pool->quarantined` is set and never cleared, and a call that begins afterwards is turned away.  A
worker's state is written by four programs, none of which looks whether it is `QUARANTINED`: its
thread stores `RUNNING` on entry and `EXITED` on exit, the supervisor and the executing shutdown
store what they have last read to be right.
-/

open Foundation

namespace Awp

/-! ## Who writes the state of a worker -/

/-- Before its store of `RUNNING`, or of `EXITED`. -/
def Pc.marks : Pc → Bool
  | .worker .entry | .worker .exit => true
  | _ => false

/-- The supervisor has decided to restart worker `i`, and has not created the thread. -/
def SupPc.revives : SupPc → Option Nat
  | .joinedLoad r | .join r | .setJoined r | .setState r | .ask (.joined r) | .askStop (.joined r)
  | .reopen r | .stampProgress r | .ask (.reopened r) | .askStop (.reopened r) | .startStop r
  | .startJoined r | .startState r | .startGeneration r | .create r | .createFailState r => some r.i
  | _ => none

/-- It has found worker `i` exited, and asks whether to restart it. -/
def SupPc.plans : SupPc → Option Nat
  | .progress r .exited | .ask (.restart r) | .askStop (.restart r) => some r.i
  | _ => none

/-- Shutdown has found worker `i` exited, and joins it. -/
def ShutPc.collects : ShutPc → Option Nat
  | .exitedJoined _ i _ | .joinClock _ (.worker i _) | .joinCreate _ (.worker i _)
  | .joinPoll _ (.worker i _) _ | .joinPollClock _ (.worker i _) _ | .setJoined _ i _
  | .setStateJoined _ i _ => some i
  | _ => none

/-- Shutdown is about to quarantine worker `i`; the last of the three stores is that of a shutdown
that skips the joins. -/
def ShutPc.condemns : ShutPc → Option Nat
  | .setQuarantined _ i | .stuckStore _ i | .lateStore _ i => some i
  | _ => none

def ShutPc.late : ShutPc → Option Nat
  | .lateStore _ i => some i
  | _ => none

/-- The executor is past its store of `supervisor_stop`. -/
def ShutPc.stopped : ShutPc → Bool
  | .quiesceLock | .quiesceBroadcast | .quiesceUnlock | .now | .activeLoop _ | .activeClock _
  | .activeTest _ | .mark _ .active | .markFrames _ .active | .noteAbort _ .active
  | .timeoutClose _ _ | .supStop _ => false
  | p => p.executes

section Writers

variable {c : Config} {m m' : Ctl} {l : Loc Nat Nat} {x : Choice} {k : Cmd}

theorem Nest.next_w (n : Nest) : (n.next m).1.w = m.w := by
  cases n <;> rfl

theorem WorkerPc.next_state {i : Nat} {p p' : WorkerPc} (hn : p.next c m i l x = some (m', p', k))
    (j : Nat) : (m'.w j).state = (m.w j).state ∨
      (j = i ∧ (Pc.worker p).marks = true ∧ (m'.w j).state ≠ .quarantined) := by
  have hset : ∀ f : Worker → Worker, (∀ w, (f w).state = w.state) →
      ((m.setW i f).w j).state = (m.w j).state := fun f hf ↦
    Ctl.setW_all (P := fun w w' ↦ w'.state = w.state) (fun _ ↦ rfl) (hf _) j
  by_cases hj : j = i
  · subst hj
    cases p with
    | entry | exit =>
      obtain ⟨rfl, rfl, rfl⟩ := outcome_inj hn
      rw [Ctl.setW_self]
      exact Or.inr ⟨rfl, rfl, by simp⟩
    | depth | pop =>
      have hm : m' = m := by
        cases l <;> simp only [WorkerPc.next] at hn <;> grind
      exact Or.inl (by rw [hm])
    | process p slot n =>
      left
      by_cases hout : n = .out
      · subst hout
        cases x <;> simp only [WorkerPc.next, reduceCtorEq, Option.some.injEq, Prod.mk.injEq] at hn <;>
          obtain ⟨rfl, rfl, -⟩ := hn
        · exact hset _ fun _ ↦ rfl
        · rfl
      · have hstep : m' = (n.next m).1 := by
          cases n <;> cases x <;> first | exact absurd rfl hout | (cases hn; rfl)
        rw [hstep, n.next_w]
    | onError p slot rc n =>
      left
      by_cases hout : n = .out
      · subst hout
        cases x <;> simp only [WorkerPc.next, reduceCtorEq, Option.some.injEq, Prod.mk.injEq] at hn <;>
          obtain ⟨rfl, rfl, -⟩ := hn
        · exact hset _ fun _ ↦ rfl
        · rfl
      · have hstep : m' = (n.next m).1 := by
          cases n <;> cases x <;> first | exact absurd rfl hout | (cases hn; rfl)
        rw [hstep, n.next_w]
    | returned => cases hn
    | _ =>
      obtain ⟨rfl, rfl, rfl⟩ := outcome_inj hn
      first | exact Or.inl rfl | exact Or.inl (hset _ fun _ ↦ rfl)
  · exact Or.inl (by rw [(WorkerPc.next_frame hn).1.2 j hj])

theorem SupPc.next_state {ended : Agent → Bool} {p p' : SupPc}
    (hn : p.next c m ended l x = some (m', p', k)) (j : Nat) :
    (m'.w j).state = (m.w j).state ∨
      (p.revives = some j ∧ (m'.w j).state ≠ .quarantined) ∨
      ((∃ r, p = .quarState r) ∧ (m'.w j).state = .quarantined) := by
  have hkeep : ∀ i (f : Worker → Worker), (∀ w, (f w).state = w.state) →
      ((m.setW i f).w j).state = (m.w j).state := fun i f hf ↦
    Ctl.setW_all (P := fun w w' ↦ w'.state = w.state) (fun _ ↦ rfl) (hf _) j
  have hset : ∀ (r : Round) (st : WState), p.revives = some r.i → st ≠ .quarantined →
      ((m.setW r.i ({ · with state := st })).w j).state = (m.w j).state ∨
        (p.revives = some j ∧ ((m.setW r.i ({ · with state := st })).w j).state ≠ .quarantined) := by
    intro r st hp hst
    by_cases hj : j = r.i
    · subst hj
      rw [Ctl.setW_self]
      exact Or.inr ⟨hp, hst⟩
    · rw [Ctl.setW_of_ne _ _ hj]
      exact Or.inl rfl
  cases p with
  | quarState r =>
    obtain ⟨rfl, rfl, rfl⟩ := outcome_inj hn
    by_cases hj : j = r.i
    · subst hj
      rw [Ctl.setW_self]
      exact Or.inr (Or.inr ⟨⟨r, rfl⟩, rfl⟩)
    · rw [Ctl.setW_of_ne _ _ hj]
      exact Or.inl rfl
  | setState r | startState r | createFailState r =>
    obtain ⟨rfl, rfl, rfl⟩ := outcome_inj hn
    exact (hset r _ rfl (by simp)).imp_right Or.inl
  | stallDepth r last =>
    have hm : m' = m := by
      cases l <;> simp only [SupPc.next] at hn <;> grind
    exact Or.inl (by rw [hm])
  | quarClose r | reclose r | postClose r | failClose r | reopen r =>
    exact Or.inl (by rw [(ringCall_cases hn).1])
  | join r =>
    left
    cases x with
    | go | rc n =>
      simp only [SupPc.next] at hn
      split at hn <;> cases hn
      rfl
    | _ => cases hn
  | create r =>
    left
    cases x with
    | go =>
      obtain ⟨rfl, rfl, rfl⟩ := outcome_inj hn
      exact hkeep _ _ fun _ ↦ rfl
    | rc n =>
      simp only [SupPc.next] at hn
      split at hn <;> cases hn
      rfl
    | _ => cases hn
  | exitLock =>
    simp only [SupPc.next] at hn
    split at hn <;> cases hn
    exact Or.inl rfl
  | returned => cases hn
  | _ =>
    obtain ⟨rfl, rfl, rfl⟩ := outcome_inj hn
    first | exact Or.inl rfl | exact Or.inl (hkeep _ _ fun _ ↦ rfl)

theorem ShutPc.next_state {active : Int} {me : Agent} {p p' : ShutPc}
    (hn : p.next c m active me l x = some (m', p', k)) (j : Nat) :
    (m'.w j).state = (m.w j).state ∨
      (p.collects = some j ∧ (m'.w j).state ≠ .quarantined) ∨
      (p.condemns = some j ∧ (m'.w j).state = .quarantined) := by
  have hkeep : ∀ i (f : Worker → Worker), (∀ w, (f w).state = w.state) →
      ((m.setW i f).w j).state = (m.w j).state := fun i f hf ↦
    Ctl.setW_all (P := fun w w' ↦ w'.state = w.state) (fun _ ↦ rfl) (hf _) j
  cases p with
  | setQuarantined e i | stuckStore e i | lateStore e i =>
    obtain ⟨rfl, rfl, rfl⟩ := outcome_inj hn
    by_cases hj : j = i
    · subst hj
      rw [Ctl.setW_self]
      exact Or.inr (Or.inr ⟨rfl, rfl⟩)
    · rw [Ctl.setW_of_ne _ _ hj]
      exact Or.inl rfl
  | setStateJoined e i late =>
    obtain ⟨rfl, rfl, rfl⟩ := outcome_inj hn
    by_cases hj : j = i
    · subst hj
      rw [Ctl.setW_self]
      exact Or.inr (Or.inl ⟨rfl, by simp⟩)
    · rw [Ctl.setW_of_ne _ _ hj]
      exact Or.inl rfl
  | timeoutClose e i | closeAll e i | lateClose e i =>
    simp only [ShutPc.next] at hn
    split at hn
    · exact Or.inl (by rw [(closeCall_cases hn).1])
    · cases hn
      exact Or.inl rfl
  | stopClose e i => exact Or.inl (by rw [(closeCall_cases hn).1])
  | waitLock | waitRelock | quiesceLock | lifeLock e last =>
    simp only [ShutPc.next, Option.map_eq_some_iff, Prod.mk.injEq] at hn
    obtain ⟨m₁, hm, rfl, -, -⟩ := hn
    exact Or.inl (by rw [(Ctl.lockLife_eq hm).2])
  | drainPop e i =>
    have hm : m' = m := by
      cases l <;> simp only [ShutPc.next] at hn <;> grind
    exact Or.inl (by rw [hm])
  | joinCreate e t =>
    left
    cases x with
    | go =>
      obtain ⟨rfl, rfl, rfl⟩ := outcome_inj hn
      rfl
    | rc n =>
      simp only [ShutPc.next] at hn
      split at hn <;> cases hn
      rfl
    | _ => cases hn
  | cas life | waitLife | waitBlocked ticket | anyQuarantined e i =>
    simp only [ShutPc.next] at hn
    split at hn <;> cases hn <;> exact Or.inl rfl
  | done rc => cases hn
  | _ =>
    obtain ⟨rfl, rfl, rfl⟩ := outcome_inj hn
    first | exact Or.inl rfl | exact Or.inl (hkeep _ _ fun _ ↦ rfl)

/-! ### How they come to where they write -/

theorem Round.head_revives (r : Round) : (r.head c).revives = none ∧ (r.head c).plans = none := by
  rw [Round.head]
  split <;> exact ⟨rfl, rfl⟩

theorem Round.next_revives (r : Round) : (r.next c).revives = none ∧ (r.next c).plans = none :=
  Round.head_revives _

theorem Ask.answer_false (q : Ask) : (q.answer c false).revives = none := by
  cases q <;> first | rfl | exact (Round.next_revives _).1

theorem Ask.answer_true {q : Ask} {i : Nat} (h : (q.answer c true).revives = some i) :
    (SupPc.askStop q).revives = some i ∨ (SupPc.askStop q).plans = some i := by
  cases q <;> first | exact Or.inl h | exact Or.inr h

theorem Ask.answer_plans (q : Ask) (v : Bool) : (q.answer c v).plans = none := by
  cases q <;> cases v <;> first | rfl | exact (Round.next_revives _).2

theorem Round.inspect_plans {r : Round} {st : WState} {last i : Nat}
    (h : (r.inspect c st last).plans = some i) : (SupPc.progress r st).plans = some i := by
  simp only [Round.inspect] at h
  repeat' split at h
  all_goals first
    | (rw [(Round.next_revives _).2] at h; cases h)
    | cases h
  rename_i hst
  rw [hst.1]
  rfl

theorem Round.inspect_revives (r : Round) (st : WState) (last : Nat) :
    (r.inspect c st last).revives = none := by
  simp only [Round.inspect]
  repeat' split
  all_goals first | rfl | exact (Round.next_revives _).1

/-- A restart begins where `life_is_running` has said so. -/
theorem SupPc.next_revives {ended : Agent → Bool} {p p' : SupPc} {i : Nat}
    (hn : p.next c m ended l x = some (m', p', k)) (h : p'.revives = some i) :
    p.revives = some i ∨ (p.plans = some i ∧ m.supervisorStop = false) := by
  cases p with
  | ask q =>
    obtain ⟨rfl, rfl, rfl⟩ := outcome_inj hn
    split at h
    · left
      cases q <;> exact h
    · rw [Ask.answer_false] at h
      cases h
  | askStop q =>
    obtain ⟨rfl, rfl, rfl⟩ := outcome_inj hn
    cases hstop : m.supervisorStop with
    | false =>
      rw [hstop] at h
      exact (Ask.answer_true h).imp_right fun hplans ↦ ⟨hplans, rfl⟩
    | true =>
      rw [hstop, Bool.not_true, Ask.answer_false] at h
      cases h
  | now =>
    obtain ⟨rfl, rfl, rfl⟩ := outcome_inj hn
    rw [(Round.head_revives _).1] at h
    cases h
  | progress r st =>
    obtain ⟨rfl, rfl, rfl⟩ := outcome_inj hn
    rw [Round.inspect_revives] at h
    cases h
  | healthy r | quarAbort r | joinFailFrames r | restarted r | failStop r =>
    obtain ⟨rfl, rfl, rfl⟩ := outcome_inj hn
    rw [(Round.next_revives _).1] at h
    cases h
  | quarClose r | reclose r | postClose r | failClose r =>
    obtain ⟨-, rfl | rfl⟩ := ringCall_cases hn
    · cases h
    · first | cases h | (rw [(Round.next_revives _).1] at h; cases h)
  | reopen r =>
    obtain ⟨-, rfl | rfl⟩ := ringCall_cases hn <;> exact Or.inl h
  | stallDepth r last =>
    have hp' : p' = .stallDepth r last ∨ p' = .stallStop r last ∨ p' = r.next c := by
      cases l <;> simp only [SupPc.next] at hn <;> grind
    rcases hp' with rfl | rfl | rfl
    · cases h
    · cases h
    · rw [(Round.next_revives _).1] at h
      cases h
  | join r | create r =>
    cases x <;> simp only [SupPc.next] at hn <;> grind [SupPc.revives]
  | exitLock =>
    simp only [SupPc.next] at hn
    split at hn <;> cases hn
    cases h
  | returned => cases hn
  | joinedLoad r =>
    obtain ⟨rfl, rfl, rfl⟩ := outcome_inj hn
    left
    split at h <;> exact h
  | sliceClock r | graceState r last u | graceClock r last u | graceProgress r last u
  | afterExited r last | afterRunning r last | afterStop r last | afterProgress r last =>
    obtain ⟨rfl, rfl, rfl⟩ := outcome_inj hn
    split at h <;> cases h
  | _ =>
    obtain ⟨rfl, rfl, rfl⟩ := outcome_inj hn
    first | exact Or.inl h | cases h

/-- A restart is planned for a worker that is read to have exited. -/
theorem SupPc.next_plans {ended : Agent → Bool} {p p' : SupPc} {i : Nat}
    (hn : p.next c m ended l x = some (m', p', k)) (h : p'.plans = some i) :
    m' = m ∧ (p.plans = some i ∨ (m.w i).state ≠ .quarantined) := by
  cases p with
  | ask q =>
    obtain ⟨rfl, rfl, rfl⟩ := outcome_inj hn
    split at h
    · refine ⟨rfl, Or.inl ?_⟩
      cases q <;> exact h
    · rw [Ask.answer_plans] at h
      cases h
  | askStop q =>
    obtain ⟨rfl, rfl, rfl⟩ := outcome_inj hn
    rw [Ask.answer_plans] at h
    cases h
  | now =>
    obtain ⟨rfl, rfl, rfl⟩ := outcome_inj hn
    rw [(Round.head_revives _).2] at h
    cases h
  | state r =>
    obtain ⟨rfl, rfl, rfl⟩ := outcome_inj hn
    refine ⟨rfl, Or.inr ?_⟩
    cases hst : (m.w r.i).state <;> rw [hst] at h <;> cases h
    rw [hst]
    simp
  | progress r st =>
    obtain ⟨rfl, rfl, rfl⟩ := outcome_inj hn
    exact ⟨rfl, Or.inl (Round.inspect_plans h)⟩
  | afterExited r last =>
    obtain ⟨rfl, rfl, rfl⟩ := outcome_inj hn
    refine ⟨rfl, Or.inr ?_⟩
    split at h
    · rename_i hst
      cases h
      rw [hst]
      simp
    · cases h
  | healthy r | quarAbort r | joinFailFrames r | restarted r | failStop r =>
    obtain ⟨rfl, rfl, rfl⟩ := outcome_inj hn
    rw [(Round.next_revives _).2] at h
    cases h
  | quarClose r | reclose r | postClose r | failClose r | reopen r =>
    obtain ⟨-, rfl | rfl⟩ := ringCall_cases hn
    · cases h
    · first | cases h | (rw [(Round.next_revives _).2] at h; cases h)
  | stallDepth r last =>
    have hp' : p' = .stallDepth r last ∨ p' = .stallStop r last ∨ p' = r.next c := by
      cases l <;> simp only [SupPc.next] at hn <;> grind
    rcases hp' with rfl | rfl | rfl
    · cases h
    · cases h
    · rw [(Round.next_revives _).2] at h
      cases h
  | join r | create r =>
    cases x <;> simp only [SupPc.next] at hn <;> grind [SupPc.plans]
  | exitLock =>
    simp only [SupPc.next] at hn
    split at hn <;> cases hn
    cases h
  | returned => cases hn
  | sliceClock r | graceState r last u | graceClock r last u | graceProgress r last u
  | afterRunning r last | afterStop r last | afterProgress r last | joinedLoad r =>
    obtain ⟨rfl, rfl, rfl⟩ := outcome_inj hn
    split at h <;> cases h
  | _ =>
    obtain ⟨rfl, rfl, rfl⟩ := outcome_inj hn
    cases h

theorem Exec.teardown_collects (e : Exec) : e.teardown.collects = none := by
  rw [Exec.teardown]
  split <;> rfl

theorem Exec.workerHead_collects (e : Exec) (i : Nat) : (e.workerHead c i).collects = none := by
  rw [Exec.workerHead]
  split <;> rfl

theorem Exec.lateHead_collects (e : Exec) (i : Nat) : (e.lateHead c i).collects = none := by
  rw [Exec.lateHead]
  split <;> rfl

/-- Shutdown joins a worker that it has read to have exited. -/
theorem ShutPc.next_collects {active : Int} {me : Agent} {p p' : ShutPc} {i : Nat}
    (hn : p.next c m active me l x = some (m', p', k)) (h : p'.collects = some i) :
    p.collects = some i ∨ (m' = m ∧ (m.w i).state ≠ .quarantined) := by
  cases p with
  | workerState2 e j =>
    obtain ⟨rfl, rfl, rfl⟩ := outcome_inj hn
    right
    refine ⟨rfl, ?_⟩
    split at h
    · rename_i hst
      cases h
      rcases hst with hst | hst <;> rw [hst] <;> simp
    · cases h
  | graceExited e j =>
    obtain ⟨rfl, rfl, rfl⟩ := outcome_inj hn
    right
    refine ⟨rfl, ?_⟩
    split at h
    · rename_i hst
      cases h
      rw [hst]
      simp
    · cases h
  | timeoutClose e j =>
    simp only [ShutPc.next] at hn
    split at hn
    · obtain ⟨-, rfl | rfl⟩ := closeCall_cases hn <;> cases h
    · cases hn
      cases h
  | closeAll e j =>
    simp only [ShutPc.next] at hn
    split at hn
    · obtain ⟨-, rfl | rfl⟩ := closeCall_cases hn <;> cases h
    · cases hn
      cases h
  | lateClose e j =>
    simp only [ShutPc.next] at hn
    split at hn
    · obtain ⟨-, rfl | rfl⟩ := closeCall_cases hn <;> cases h
    · cases hn
      cases h
  | stopClose e j =>
    obtain ⟨-, rfl | rfl⟩ := closeCall_cases hn <;> cases h
  | waitLock | waitRelock | quiesceLock | lifeLock e last =>
    simp only [ShutPc.next, Option.map_eq_some_iff, Prod.mk.injEq] at hn
    obtain ⟨m₁, -, -, rfl, -⟩ := hn
    cases h
  | lifeUnlock e last =>
    obtain ⟨rfl, rfl, rfl⟩ := outcome_inj hn
    cases last <;> cases h
  | drainPop e j =>
    have hp' : p' = .drainPop e j ∨ (∃ q, p' = .drainCount e j q) ∨ p' = e.workerHead c (j + 1) := by
      cases l <;> simp only [ShutPc.next] at hn <;> grind
    rcases hp' with rfl | ⟨q, rfl⟩ | rfl
    · cases h
    · cases h
    · rw [Exec.workerHead_collects] at h
      cases h
  | joinClock e t | joinPollClock e t b =>
    obtain ⟨rfl, rfl, rfl⟩ := outcome_inj hn
    left
    split at h <;> cases t <;> first | exact h | cases h
  | joinCreate e t =>
    left
    cases x with
    | go =>
      obtain ⟨rfl, rfl, rfl⟩ := outcome_inj hn
      cases t <;> exact h
    | rc v =>
      simp only [ShutPc.next] at hn
      split at hn <;> cases hn
      cases t <;> cases h
    | _ => cases hn
  | joinPoll e t b =>
    obtain ⟨rfl, rfl, rfl⟩ := outcome_inj hn
    left
    cases hbox : m.box b with
    | none =>
      rw [hbox] at h
      cases t <;> exact h
    | some rc =>
      simp only [hbox] at h
      split at h <;> cases t <;> first | exact h | cases h
  | mark e v | markFrames e v | noteAbort e v =>
    obtain ⟨rfl, rfl, rfl⟩ := outcome_inj hn
    cases v <;> cases h
  | supJoinedLoad e =>
    obtain ⟨rfl, rfl, rfl⟩ := outcome_inj hn
    split at h
    · cases h
    · rw [Exec.teardown_collects] at h
      cases h
  | supSetJoined e =>
    obtain ⟨rfl, rfl, rfl⟩ := outcome_inj hn
    rw [Exec.teardown_collects] at h
    cases h
  | exitedJoined e j late =>
    obtain ⟨rfl, rfl, rfl⟩ := outcome_inj hn
    left
    split at h
    · split at h <;> cases h
    · exact h
  | setJoined e j late =>
    obtain ⟨rfl, rfl, rfl⟩ := outcome_inj hn
    exact Or.inl h
  | setStateJoined e j late =>
    obtain ⟨rfl, rfl, rfl⟩ := outcome_inj hn
    split at h <;> cases h
  | closeFrames e =>
    obtain ⟨rfl, rfl, rfl⟩ := outcome_inj hn
    rw [Exec.workerHead_collects] at h
    cases h
  | lateStarting e j =>
    obtain ⟨rfl, rfl, rfl⟩ := outcome_inj hn
    split at h
    · cases h
    · rw [Exec.lateHead_collects] at h
      cases h
  | lateStore e j =>
    obtain ⟨rfl, rfl, rfl⟩ := outcome_inj hn
    rw [Exec.lateHead_collects] at h
    cases h
  | drainState e j | drainClock e j =>
    obtain ⟨rfl, rfl, rfl⟩ := outcome_inj hn
    split at h <;> first | cases h | (rw [Exec.workerHead_collects] at h; cases h)
  | start =>
    obtain ⟨rfl, rfl, rfl⟩ := outcome_inj hn
    cases hlife : m.lifecycle <;> rw [hlife] at h <;> cases h
  | anyQuarantined e j =>
    simp only [ShutPc.next] at hn
    split at hn <;> cases hn
    · split at h <;> cases h
    · cases h
  | cas life | waitLife | waitBlocked ticket =>
    simp only [ShutPc.next] at hn
    split at hn <;> cases hn <;> cases h
  | done rc => cases hn
  | _ =>
    obtain ⟨rfl, rfl, rfl⟩ := outcome_inj hn
    first
      | cases h
      | (split at h <;> cases h)
      | (repeat' split at h) <;> cases h

theorem ShutPc.next_stopped {active : Int} {me : Agent} {p p' : ShutPc}
    (hn : p.next c m active me l x = some (m', p', k)) (h : p'.stopped = true) :
    p.stopped = true ∨ m'.supervisorStop = true := by
  by_cases hp : p.executes = true
  · cases p with
    | supStop e =>
      obtain ⟨rfl, rfl, rfl⟩ := outcome_inj hn
      exact Or.inr rfl
    | quiesceLock =>
      simp only [ShutPc.next, Option.map_eq_some_iff, Prod.mk.injEq] at hn
      obtain ⟨m₁, -, -, rfl, -⟩ := hn
      cases h
    | timeoutClose e i =>
      simp only [ShutPc.next] at hn
      split at hn
      · obtain ⟨-, rfl | rfl⟩ := closeCall_cases hn <;> cases h
      · cases hn
        cases h
    | mark e v | markFrames e v | noteAbort e v =>
      obtain ⟨rfl, rfl, rfl⟩ := outcome_inj hn
      cases v <;> first | exact Or.inl rfl | cases h
    | quiesceBroadcast | quiesceUnlock | now =>
      obtain ⟨rfl, rfl, rfl⟩ := outcome_inj hn
      cases h
    | activeLoop d | activeClock d | activeTest d =>
      obtain ⟨rfl, rfl, rfl⟩ := outcome_inj hn
      split at h <;> cases h
    | _ => first | exact Or.inl rfl | cases hp
  · have hno : p'.stopped = false := by
      rcases ShutPc.next_observer (by simpa using hp) hn with ⟨hex, -⟩ | ⟨life, -, -, rfl, -⟩
      · cases p' <;> first | rfl | cases hex
      · rfl
    rw [hno] at h
    cases h

/-- The supervisor has been joined when shutdown comes to join, or to quarantine, a worker; the
shutdown that skips the joins may find it alive. -/
theorem ShutPc.supJoined {T : Crew} {p : ShutPc} {i : Nat} (hk : Known c m T p.facts)
    (h : p.collects = some i ∨ (p.condemns = some i ∧ p.late = none)) : m.supervisorJoined = true := by
  cases p with
  | exitedJoined e j late =>
    exact (hk (.ended j) (by simp [ShutPc.facts])).1
  | joinClock e t | joinCreate e t =>
    cases t with
    | sup => rcases h with h | ⟨h, -⟩ <;> cases h
    | worker j late => exact (hk (.unjoined j) (by simp [ShutPc.facts])).1
  | joinPoll e t b | joinPollClock e t b =>
    cases t with
    | sup => rcases h with h | ⟨h, -⟩ <;> cases h
    | worker j late => exact (hk (.helper b j) (by simp [ShutPc.facts])).1
  | setJoined e j late => exact (hk (.collected j) (by simp [ShutPc.facts])).1
  | setStateJoined e j late => exact (hk (.joined j) (by simp [ShutPc.facts])).1
  | setQuarantined e j => exact (hk (.harmless e.deadline j) (by simp [ShutPc.facts])).1
  | stuckStore e j => exact (hk (.settled j) (by simp [ShutPc.facts, loopFacts])).1
  | lateStore e j => rcases h with h | ⟨-, h⟩ <;> cases h
  | _ => rcases h with h | ⟨h, -⟩ <;> cases h

theorem ShutPc.stopped_of_condemns {p : ShutPc} {i : Nat} (h : p.condemns = some i) :
    p.stopped = true ∧ p.executes = true := by
  cases p <;> first | exact ⟨rfl, rfl⟩ | cases h

theorem ShutPc.collects_of_condemns {p : ShutPc} {i : Nat} (h : p.condemns = some i) :
    p.collects = none := by
  cases p <;> first | rfl | cases h

theorem ShutPc.executes_of_stopped {p : ShutPc} (h : p.stopped = true) : p.executes = true := by
  cases p <;> first | rfl | cases h

theorem ShutPc.executes_of_collects {p : ShutPc} {i : Nat} (h : p.collects = some i) :
    p.executes = true := by
  cases p <;> first | rfl | cases h

end Writers

/-! ## The quarantine of a worker -/

/-- The worker that a shutdown which skips the joins is about to quarantine. -/
def Pc.lateFor (pc : Pc) : Option Nat := pc.shut?.bind ShutPc.late

/-- Nobody overwrites a quarantine: the thread of a quarantined worker does not come to its entry or
to its exit, and a shutdown that skips the joins does not quarantine a worker that is just being
restarted. -/
def Sticky (s : Pool) : Label → Prop
  | .step (.worker i k) _ =>
    (s.thr (.worker i k)).pc.marks = true → (s.ctl.w i).state ≠ .quarantined
  | .step (.api n) _ =>
    (s.thr (.api n)).pc.lateFor = none ∨
      (s.thr (.api n)).pc.lateFor ≠ (s.thr .sup).pc.asSup.revives
  | _ => True

instance (s : Pool) : (e : Label) → Decidable (Sticky s e)
  | .step (.worker i k) _ => inferInstanceAs (Decidable
      ((s.thr (.worker i k)).pc.marks = true → (s.ctl.w i).state ≠ .quarantined))
  | .step (.api n) _ => inferInstanceAs (Decidable ((s.thr (.api n)).pc.lateFor = none ∨
      (s.thr (.api n)).pc.lateFor ≠ (s.thr .sup).pc.asSup.revives))
  | .step .sup _ | .step (.helper _) _ | .tick _ | .call .. | .shutdown .. | .destroy _ =>
    inferInstanceAs (Decidable True)

/-- What the supervisor and shutdown rely on when they write the state of a worker. -/
structure Pool.Sticks (s : Pool) : Prop where
  plans : ∀ i, (s.thr .sup).pc.asSup.plans = some i →
    (s.ctl.w i).state ≠ .quarantined ∨ s.ctl.supervisorStop = true
  revives : ∀ i, (s.thr .sup).pc.asSup.revives = some i → (s.ctl.w i).state ≠ .quarantined
  collects : ∀ n p i, (s.thr (.api n)).pc.shut? = some p → p.collects = some i →
    (s.ctl.w i).state ≠ .quarantined
  stopped : ∀ n p, (s.thr (.api n)).pc.shut? = some p → p.stopped = true →
    s.ctl.supervisorStop = true

section Sticks

variable {c : Config} {s s' : Pool}

theorem Pool.Sticks.init (now : Nat) : (Pool.init c now).Sticks where
  plans i h := by cases h
  revives i h := by cases h
  collects n p i h := by cases h
  stopped n p h := by cases h

/-- The state of a worker changes from what is no quarantine, or to a quarantine. -/
theorem Pool.Sticks.state (h : s.Sticks) (hs : Sound c s) {e : Label} (hok : Sticky s e)
    (hst : s.step c e = some s') (i : Nat) :
    (s'.ctl.w i).state = (s.ctl.w i).state ∨ (s.ctl.w i).state ≠ .quarantined ∨
      (s'.ctl.w i).state = .quarantined := by
  cases Pool.step_act hs.seated hst with
  | worker j k' x hj hk' hp hn hk =>
    rcases WorkerPc.next_state hn i with hsame | ⟨rfl, hmarks, -⟩
    · exact Or.inl hsame
    · exact Or.inr (Or.inl (hok (by rw [hp]; exact hmarks)))
  | sup x he hp hn hk =>
    rcases SupPc.next_state hn i with hsame | ⟨hrevives, -⟩ | ⟨-, hq⟩
    · exact Or.inl hsame
    · exact Or.inr (Or.inl (h.revives i (by rw [hp]; exact hrevives)))
    · exact Or.inr (Or.inr hq)
  | shut n x hw hp hn hk =>
    rcases ShutPc.next_state hn i with hsame | ⟨hcollects, -⟩ | ⟨-, hq⟩
    · exact Or.inl hsame
    · exact Or.inr (Or.inl (h.collects n _ i (by rw [hp, hw.shut?]) hcollects))
    · exact Or.inr (Or.inr hq)
  | destroy n x hp hn hfrom hto hframe hk =>
    have hw := congrArg Ctl.w hframe
    exact Or.inl (by rw [Pool.moved_ctl, hw])
  | helper j x hj hp hn hk =>
    have hw := congrArg Ctl.w (HelperPc.next_frame hn)
    exact Or.inl (by rw [Pool.moved_ctl, hw])
  | tick | call | shutdown | destroyed | access | api => exact Or.inl rfl

/-- Neither the supervisor, nor a shutdown call, nor what they look at has moved. -/
theorem Pool.Sticks.congr (h : s.Sticks) (hsup : (s'.thr .sup).pc = (s.thr .sup).pc)
    (hshut : ∀ n p, (s'.thr (.api n)).pc.shut? = some p → (s.thr (.api n)).pc.shut? = some p ∨
      p.executes = false)
    (hstate : ∀ i, (s'.ctl.w i).state = (s.ctl.w i).state ∨ (s'.ctl.w i).state ≠ .quarantined)
    (hstop : s.ctl.supervisorStop = true → s'.ctl.supervisorStop = true) : s'.Sticks := by
  have hkept : ∀ i, (s.ctl.w i).state ≠ .quarantined → (s'.ctl.w i).state ≠ .quarantined := by
    intro i hi
    rcases hstate i with hsame | hne
    · rwa [hsame]
    · exact hne
  refine ⟨fun i hi ↦ ?_, fun i hi ↦ ?_, fun n p i hp hi ↦ ?_, fun n p hp hps ↦ ?_⟩
  · rw [hsup] at hi
    exact (h.plans i hi).imp (hkept i) hstop
  · rw [hsup] at hi
    exact hkept i (h.revives i hi)
  · rcases hshut n p hp with hold | hno
    · exact hkept i (h.collects n p i hold hi)
    · rw [ShutPc.executes_of_collects hi] at hno
      cases hno
  · rcases hshut n p hp with hold | hno
    · exact hstop (h.stopped n p hold hps)
    · rw [ShutPc.executes_of_stopped hps] at hno
      cases hno

/-- A live supervisor has not been joined. -/
theorem Sound.sup_gone (hs : Sound c s) (hj : s.ctl.supervisorJoined = true) :
    (s.thr .sup).pc.asSup.plans = none ∧ (s.thr .sup).pc.asSup.revives = none := by
  have hcrew : s.crew.sup = (s.thr .sup).pc.asSup := rfl
  rcases hs.custody.supDone hj with he | hr
  · rw [← hcrew, (hs.custody.supAbsent he).2]
    exact ⟨rfl, rfl⟩
  · rw [← hcrew, hr]
    exact ⟨rfl, rfl⟩

/-- **Step lemma.** -/
theorem Pool.Sticks.step (h : s.Sticks) (hs : Sound c s) {e : Label} (hok : Sticky s e)
    (hst : s.step c e = some s') : s'.Sticks := by
  have hkeep : ∀ {m : Ctl} {d : Dat} {n : Nat} {pc : Pc} {sh : Nat} {l : Loc Nat Nat},
      (∀ p, pc.shut? = some p → p.executes = false) → ∀ n' p,
      ((s.moved m d (.api n) pc sh l).thr (.api n')).pc.shut? = some p →
      (s.thr (.api n')).pc.shut? = some p ∨ p.executes = false := by
    intro m d n pc sh l hpc n' p hp
    by_cases hne : Agent.api n' = .api n
    · cases hne
      rw [Pool.moved_self] at hp
      exact Or.inr (hpc p hp)
    · rw [Pool.moved_of_ne hne] at hp
      exact Or.inl hp
  cases Pool.step_act hs.seated hst with
  | tick t => exact h.congr rfl (fun _ _ ↦ Or.inl) (fun _ ↦ Or.inl rfl) id
  | access a x spurious r l hact hstep =>
    exact h.congr Pool.accessed_pc (fun n p hp ↦ Or.inl (by rwa [Pool.accessed_pc] at hp))
      (fun _ ↦ Or.inl rfl) id
  | call n pool f hidle | api n x hp hn hk =>
    exact h.congr (by rw [Pool.moved_of_ne (by simp)]) (hkeep fun p hp ↦ by cases hp)
      (fun _ ↦ Or.inl rfl) id
  | shutdown n tls hidle =>
    refine h.congr (by rw [Pool.moved_of_ne (by simp)]) (hkeep fun p hp ↦ ?_) (fun _ ↦ Or.inl rfl) id
    cases hp
    cases tls <;> rfl
  | destroyed n hidle =>
    exact h.congr (by rw [Pool.moved_of_ne (by simp)]) (hkeep fun p hp ↦ by cases hp)
      (fun _ ↦ Or.inl rfl) id
  | destroy n x hp hn hfrom hto hframe hk =>
    rename_i p p' m k sh l
    have hw := congrArg Ctl.w hframe
    have hstop := congrArg Ctl.supervisorStop hframe
    refine h.congr (by rw [Pool.moved_of_ne (by simp)]) (hkeep fun q hq ↦ ?_)
      (fun i ↦ Or.inl (by rw [Pool.moved_ctl, hw])) (fun hs ↦ ?_)
    · cases p' <;> cases hq
      rw [hto _ rfl]
      rfl
    · rw [Pool.moved_ctl, hstop]
      exact hs
  | helper j x hj hp hn hk =>
    have hw := congrArg Ctl.w (HelperPc.next_frame hn)
    have hstop := congrArg Ctl.supervisorStop (HelperPc.next_frame hn)
    refine h.congr (by rw [Pool.moved_of_ne (by simp)]) (fun n p hp ↦ Or.inl ?_)
      (fun i ↦ Or.inl (by rw [Pool.moved_ctl, hw])) (fun hs ↦ ?_)
    · rwa [Pool.moved_of_ne (by simp)] at hp
    · rw [Pool.moved_ctl, hstop]
      exact hs
  | worker j k' x hj hk' hp hn hk =>
    refine h.congr (by rw [Pool.moved_of_ne (by simp)]) (fun n p hp ↦ Or.inl ?_) (fun i ↦ ?_)
      (WorkerPc.next_onward hn).stop
    · rwa [Pool.moved_of_ne (by simp)] at hp
    · exact (WorkerPc.next_state hn i).imp_right fun ⟨_, _, hne⟩ ↦ hne
  | sup x he hp hn hk =>
    rename_i p p' m k sh l
    have hon := SupPc.next_onward hn
    have hpc : (s.thr .sup).pc.asSup = p := by rw [hp]; rfl
    -- the supervisor is alive, so no shutdown call has come to the joins of workers
    have halive : s.ctl.supervisorJoined ≠ true := by
      intro hj
      rcases hs.custody.supDone hj with hno | hret
      · cases he.symm.trans hno
      · rw [show s.crew.sup = p from hpc] at hret
        subst hret
        cases hn
    have hshut : ∀ n, (s.moved m s.dat .sup (.sup p') sh l).thr (.api n) = s.thr (.api n) :=
      fun n ↦ Pool.moved_of_ne (by simp)
    refine ⟨fun i hi ↦ ?_, fun i hi ↦ ?_, fun n q i hq hi ↦ ?_, fun n q hq hqs ↦ ?_⟩
    · rw [Pool.moved_self] at hi
      obtain ⟨rfl, hplans | hne⟩ := SupPc.next_plans hn hi
      · exact h.plans i (by rwa [hpc])
      · exact Or.inl hne
    · rw [Pool.moved_self] at hi
      have hbefore : (s.ctl.w i).state ≠ .quarantined := by
        rcases SupPc.next_revives hn hi with hrevives | ⟨hplans, hstop⟩
        · exact h.revives i (by rwa [hpc])
        · exact (h.plans i (by rwa [hpc])).resolve_right (by rw [hstop]; decide)
      rcases SupPc.next_state hn i with hsame | ⟨-, hne⟩ | ⟨⟨r, rfl⟩, -⟩
      · rwa [Pool.moved_ctl, hsame]
      · exact hne
      · rcases SupPc.next_revives hn hi with hrevives | ⟨hplans, -⟩
        · cases hrevives
        · cases hplans
    · rw [hshut] at hq
      exact absurd (ShutPc.supJoined (hs.known n q hq) (Or.inl hi)) halive
    · rw [hshut] at hq
      exact hon.stop (h.stopped n q hq hqs)
  | shut n x hw hp hn hk =>
    rename_i wrap q q' m k sh l
    have hon := ShutPc.next_onward hn
    have hq : (s.thr (.api n)).pc.shut? = some q := by rw [hp, hw.shut?]
    have hsup : (s.moved m s.dat (.api n) (wrap q') sh l).thr .sup = s.thr .sup :=
      Pool.moved_of_ne (by simp)
    refine ⟨fun i hi ↦ ?_, fun i hi ↦ ?_, fun n' p i hp' hi ↦ ?_, fun n' p hp' hps ↦ ?_⟩
    · rw [hsup] at hi
      rcases ShutPc.next_state hn i with hsame | ⟨-, hne⟩ | ⟨hcondemns, -⟩
      · rw [Pool.moved_ctl, hsame]
        exact (h.plans i hi).imp_right hon.stop
      · exact Or.inl hne
      · exact Or.inr (hon.stop (h.stopped n q hq (ShutPc.stopped_of_condemns hcondemns).1))
    · rw [hsup] at hi
      rcases ShutPc.next_state hn i with hsame | ⟨-, hne⟩ | ⟨hcondemns, -⟩
      · rw [Pool.moved_ctl, hsame]
        exact h.revives i hi
      · exact hne
      · exfalso
        cases hlate : q.late with
        | none =>
          have hj := ShutPc.supJoined (hs.known n q hq) (Or.inr ⟨hcondemns, hlate⟩)
          rw [(hs.sup_gone hj).2] at hi
          cases hi
        | some j =>
          have hj : j = i := by
            cases q <;> cases hlate
            exact Option.some.inj hcondemns
          have hfor : (s.thr (.api n)).pc.lateFor = some i := by
            rw [Pc.lateFor, hq, Option.bind_some, hlate, hj]
          rcases hok with hnone | hne
          · rw [hfor] at hnone
            cases hnone
          · exact hne (hfor.trans hi.symm)
    · by_cases hne : Agent.api n' = .api n
      · cases hne
        rw [Pool.moved_self, hw.shut?] at hp'
        cases hp'
        rcases ShutPc.next_collects hn hi with hold | ⟨rfl, hne⟩
        · rcases ShutPc.next_state hn i with hsame | ⟨-, hne⟩ | ⟨hcondemns, -⟩
          · rw [Pool.moved_ctl, hsame]
            exact h.collects n q i hq hold
          · exact hne
          · cases (ShutPc.collects_of_condemns hcondemns).symm.trans hold
        · exact hne
      · rw [Pool.moved_of_ne hne] at hp'
        rcases ShutPc.next_state hn i with hsame | ⟨-, hne'⟩ | ⟨hcondemns, -⟩
        · rw [Pool.moved_ctl, hsame]
          exact h.collects n' p i hp' hi
        · exact hne'
        · -- both would be the executor
          have hme := hs.executes n q hq (ShutPc.stopped_of_condemns hcondemns).2
          have hother := hs.executes n' p hp' (ShutPc.executes_of_collects hi)
          exact absurd (Option.some.inj (hother.symm.trans hme)) hne
    · by_cases hne : Agent.api n' = .api n
      · cases hne
        rw [Pool.moved_self, hw.shut?] at hp'
        cases hp'
        exact (ShutPc.next_stopped hn hps).elim (fun hold ↦ hon.stop (h.stopped n q hq hold)) id
      · rw [Pool.moved_of_ne hne] at hp'
        exact hon.stop (h.stopped n' p hp' hps)

theorem Pool.Sticks.run {now : Nat} (hrun : Steps (Pool.step c) Sticky (Pool.init c now) s) :
    s.Sticks :=
  hrun.invariant_under (P := Pool.Sticks) (fun _ ht ↦ Sound.run ht)
    (fun _ _ _ hs _ h hok hst ↦ h.step hs hok hst) (.init now)

/-- **Step lemma.** A worker that is quarantined stays so; it gets no new thread, and its ring, when it
is closed, stays closed. -/
theorem Pool.Sticks.quarantined (h : s.Sticks) (hs : Sound c s) {e : Label} (hok : Sticky s e)
    (hst : s.step c e = some s') {i : Nat} (hq : (s.ctl.w i).state = .quarantined) :
    (s'.ctl.w i).state = .quarantined ∧ (s'.ctl.w i).spawned = (s.ctl.w i).spawned ∧
      ((s.ring i).closed = true → (s'.ring i).closed = true) := by
  refine ⟨?_, ?_, fun hclosed ↦ ?_⟩
  · rcases h.state hs hok hst i with hsame | hne | hq'
    · exact hsame.trans hq
    · exact absurd hq hne
    · exact hq'
  · cases Pool.step_act hs.seated hst with
    | tick | call | shutdown | destroyed | access | api => rfl
    | shut n x hw hp hn hk =>
      have hf := congrArg Worker.spawned ((ShutPc.next_frame hn).2 i)
      exact hf
    | destroy n x hp hn hfrom hto hframe hk =>
      have hf := congrArg (fun m ↦ (Ctl.w m i).spawned) hframe
      exact hf
    | worker j k x hj hk' hp hn hk =>
      obtain ⟨⟨-, hother⟩, hown⟩ := WorkerPc.next_frame hn
      by_cases hij : i = j
      · subst hij
        have hf := congrArg Worker.spawned hown
        exact hf
      · rw [Pool.moved_ctl, hother i hij]
    | sup x he hp hn hk =>
      rcases SupPc.next_spawned hn i with hsame | ⟨-, r, rfl, hr⟩
      · exact hsame
      · refine absurd hq (h.revives i ?_)
        rw [hp, ← hr]
        rfl
    | helper j x hh hp hn hk =>
      have hf := congrArg (fun m ↦ (Ctl.w m i).spawned) (HelperPc.next_frame hn)
      exact hf
  · rcases hs.seated.step_closed hst hclosed with hstill | ⟨r, hr, hri⟩
    · exact hstill
    · refine absurd hq (h.revives i ?_)
      rw [hr, ← hri]
      rfl

/-! ## Calls that find the pool quarantined -/

/-- Where a call can be that has begun under quarantine: it comes to no ring, but for the wait of
`awp_submit_keyed`, and fails. -/
def ApiPc.Barred : ApiPc → Prop
  | .idle | .submitEnter _ | .submitActive _ | .retry _ | .claimEnter _ | .waitSpace _ | .readEnter _
  | .readDropped | .readAbandoned _ | .readLeave _ | .read _ => True
  | .submitGate _ g | .gate _ g => g ≠ .destroyStarted
  | .deactivate _ rc slot | .leave _ rc slot | .done rc slot => rc < 0 ∧ slot = none
  | _ => False

theorem ApiCall.start_barred (f : ApiCall) (pool : Bool) : (f.start c pool).Barred := by
  cases f <;> simp only [ApiCall.start] <;> repeat' split
  all_goals trivial

theorem Args.check_le (a : Args) : a.check ≤ 0 := by
  simp only [Args.check]
  repeat' split
  all_goals decide

theorem Job.again_barred (j : Job) : (j.again .retry).Barred := by
  rw [Job.again]
  split <;> trivial

theorem Job.reject_barred (j : Job) : (j.reject einval).Barred := by
  rw [Job.reject]
  cases j.kind <;> exact ⟨by decide, rfl⟩

theorem Job.return_barred (j : Job) {rc : Int} (h : rc < 0) : (j.return rc none).Barred := by
  simp only [Job.return]
  repeat' split
  all_goals first | exact ⟨h, rfl⟩ | exact j.again_barred

theorem ApiPc.Barred.next {m : Ctl} {d d' : Dat} {l : Loc Nat Nat} {x : Choice} {k : Cmd}
    {p p' : ApiPc} (h : p.Barred) (hq : m.quarantined = true)
    (hn : p.next c m d l x = some (d', p', k)) : p'.Barred := by
  have hshut : Gate.quarantined.isOpen m = false := by simp [Gate.isOpen, hq]
  cases p with
  | submitEnter a =>
    obtain ⟨rfl, rfl, rfl⟩ := outcome_inj hn
    split
    · trivial
    · have hle := a.check_le
      exact ⟨by omega, rfl⟩
  | submitGate a g =>
    obtain ⟨rfl, rfl, rfl⟩ := outcome_inj hn
    cases g with
    | lifecycle => split <;> [simp [Gate.next, ApiPc.Barred]; exact ⟨by decide, rfl⟩]
    | quarantined =>
      rw [if_neg (by rw [hshut]; decide)]
      exact ⟨by decide, rfl⟩
    | destroyStarted => exact absurd rfl h
  | gate j g =>
    obtain ⟨rfl, rfl, rfl⟩ := outcome_inj hn
    cases g with
    | lifecycle => split <;> [simp [Gate.next, ApiPc.Barred]; exact j.reject_barred]
    | quarantined =>
      rw [if_neg (by rw [hshut]; decide)]
      exact j.reject_barred
    | destroyStarted => exact absurd rfl h
  | retry j =>
    obtain ⟨rfl, rfl, rfl⟩ := outcome_inj hn
    split
    · exact j.again_barred
    · trivial
  | waitSpace j =>
    cases l <;> cases hn
    · trivial
    · cases j.kind with
      | submit a ns => simp [ApiPc.Barred]
      | claim | keyed a => trivial
  | deactivate j rc slot =>
    obtain ⟨rfl, rfl, rfl⟩ := outcome_inj hn
    exact h
  | leave j rc slot =>
    obtain ⟨hrc, rfl⟩ := h
    obtain ⟨rfl, rfl, rfl⟩ := outcome_inj hn
    exact j.return_barred hrc
  | submitActive a | claimEnter j =>
    obtain ⟨rfl, rfl, rfl⟩ := outcome_inj hn
    simp [ApiPc.Barred]
  | readEnter r =>
    obtain ⟨rfl, rfl, rfl⟩ := outcome_inj hn
    cases r <;> trivial
  | readDropped | readAbandoned v | readLeave v =>
    obtain ⟨rfl, rfl, rfl⟩ := outcome_inj hn
    trivial
  | idle | done rc slot | read v => cases hn
  | _ => exact h.elim

/-- **Run lemma.** A party that begins its call under quarantine stays where it can do no more than
fail. -/
theorem Pool.barred_run {ok : Pool → Label → Prop} {t : Pool} {n : Nat} (hs : Sound c s)
    (hq : s.ctl.quarantined = true) (hidle : (s.thr (.api n)).pc = .api .idle)
    (hrun : Steps (Pool.step c) ok s t) {p : ApiPc} (hp : (t.thr (.api n)).pc = .api p) :
    p.Barred := by
  refine (hrun.invariant (P := fun t ↦ Sound c t ∧ t.ctl.quarantined = true ∧
    ∀ p, (t.thr (.api n)).pc = .api p → p.Barred) ?_ ⟨hs, hq, fun p hp ↦ ?_⟩).2.2 p hp
  · rintro u e u' ⟨hu, hqu, h⟩ - hst
    refine ⟨hu.step hst, (Pool.step_onward hu.seated hst).quarantined hqu, fun p hp ↦ ?_⟩
    cases Pool.step_act hu.seated hst with
    | tick t => exact h p hp
    | access a x spurious r l hact hstep => exact h p (by rwa [Pool.accessed_pc] at hp)
    | call n' pool f hidle =>
      by_cases hne : Agent.api n = .api n'
      · cases hne
        rw [Pool.moved_self] at hp
        cases hp
        exact f.start_barred pool
      · exact h p (by rwa [Pool.moved_of_ne hne] at hp)
    | api n' x hp' hn hk =>
      by_cases hne : Agent.api n = .api n'
      · cases hne
        rw [Pool.moved_self] at hp
        cases hp
        exact (h _ hp').next hqu hn
      · exact h p (by rwa [Pool.moved_of_ne hne] at hp)
    | shutdown n' tls hidle | destroyed n' hidle | destroy n' x hp' hn hfrom hto hframe hk =>
      by_cases hne : Agent.api n = .api n'
      · cases hne
        rw [Pool.moved_self] at hp
        cases hp
      · exact h p (by rwa [Pool.moved_of_ne hne] at hp)
    | shut n' x hw hp' hn hk =>
      by_cases hne : Agent.api n = .api n'
      · cases hne
        rw [Pool.moved_self] at hp
        cases hw <;> cases hp
      · exact h p (by rwa [Pool.moved_of_ne hne] at hp)
    | worker | sup | helper => exact h p (by rwa [Pool.moved_of_ne (by simp)] at hp)
  · rw [hidle, Pc.api.injEq] at hp
    subst hp
    trivial

/-- **Quarantine.**  In every run in which nobody overwrites a quarantine, a worker that is quarantined
stays so, gets no new thread, and its ring, once closed, stays closed.  And in every run,
`pool->quarantined` stays set, and a call that begins under it comes to no ring and fails. -/
theorem quarantine_absorbs {now : Nat} (hrun : Steps (Pool.step c) Sticky (Pool.init c now) s) :
    (∀ s', Steps (Pool.step c) Sticky s s' → ∀ i, (s.ctl.w i).state = .quarantined →
      (s'.ctl.w i).state = .quarantined ∧ (s'.ctl.w i).spawned = (s.ctl.w i).spawned ∧
        ((s.ring i).closed = true → (s'.ring i).closed = true)) ∧
    (s.ctl.quarantined = true → ∀ s', Steps (Pool.step c) anyStep s s' →
      s'.ctl.quarantined = true ∧ ∀ n p, (s.thr (.api n)).pc = .api .idle →
        (s'.thr (.api n)).pc = .api p → p.Barred) := by
  have hs := Sound.run hrun
  refine ⟨fun s' hon i hq ↦ ?_, fun hq s' hon ↦ ⟨?_, fun n p hidle hp ↦ ?_⟩⟩
  · refine (hon.invariant (P := fun t ↦ (Sound c t ∧ t.Sticks) ∧
      (t.ctl.w i).state = .quarantined ∧ (t.ctl.w i).spawned = (s.ctl.w i).spawned ∧
        ((s.ring i).closed = true → (t.ring i).closed = true)) ?_
      ⟨⟨hs, .run hrun⟩, hq, rfl, id⟩).2
    rintro t e t' ⟨⟨ht, h⟩, hqt, hspawned, hclosed⟩ hok hst
    obtain ⟨hq', hspawned', hclosed'⟩ := h.quarantined ht hok hst hqt
    exact ⟨⟨ht.step hst, h.step ht hok hst⟩, hq', hspawned'.trans hspawned, hclosed' ∘ hclosed⟩
  · exact (hon.invariant (P := fun t ↦ Sound c t ∧ t.ctl.quarantined = true)
      (fun _ _ _ ht _ hst ↦ ⟨ht.1.step hst, (Pool.step_onward ht.1.seated hst).quarantined ht.2⟩)
      ⟨hs, hq⟩).2
  · exact Pool.barred_run hs hq hidle hon hp

end Sticks

/-- Worker 0 stays in its first callback for longer than the grace period, with another frame queued,
and is quarantined by the supervisor. -/
def stallQuarantine : List Label :=
  submits 0 0 ++ turns (.worker 0 0) 14 ++ submits 1 0 ++ [.tick 2000000] ++ turns .sup 15 ++
    [.tick 1000000] ++ turns .sup 18

/-- The callback returns, the worker empties its ring, and comes to its exit. -/
def returnsLate : List Label :=
  .step (.worker 0 0) (.rc 0) :: turns (.worker 0 0) 18 ++
    .step (.worker 0 0) (.rc 0) :: turns (.worker 0 0) 7

theorem quarantine_absorbs_stall : ∃ s s' : Pool,
    exec (guarded (Pool.step .watched) Sticky) (Pool.init .watched 0) stallQuarantine = some s ∧
    (s.ctl.w 0).state = .quarantined ∧ (s.ring 0).closed = true ∧
    exec (guarded (Pool.step .watched) Sticky) s returnsLate = some s' ∧
    (s'.thr (.worker 0 0)).pc = .worker .exit ∧ (s'.ctl.w 0).state = .quarantined ∧
    (s'.ring 0).closed = true := by
  have hrun : (exec (guarded (Pool.step .watched) Sticky) (Pool.init .watched 0)
      stallQuarantine).any (fun s ↦
        decide ((s.ctl.w 0).state = .quarantined ∧ (s.ring 0).closed = true) &&
        (exec (guarded (Pool.step .watched) Sticky) s returnsLate).any fun s' ↦
          decide ((s'.thr (.worker 0 0)).pc = .worker .exit)) = true := by decide +kernel
  obtain ⟨s, hs, hP⟩ := exec_any hrun
  rw [Bool.and_eq_true] at hP
  obtain ⟨s', hs', hexit⟩ := exec_any hP.2
  obtain ⟨hq, hclosed⟩ := of_decide_eq_true hP.1
  obtain ⟨hq', -, hclosed'⟩ :=
    (quarantine_absorbs (exec_guarded_steps hs)).1 s' (exec_guarded_steps hs') 0 hq
  exact ⟨s, s', hs, hq, hclosed, hs', of_decide_eq_true hexit, hq', hclosed' hclosed⟩

/-- The store of `EXITED` ends the quarantine, and the supervisor restarts the worker. -/
theorem quarantine_overwritten : ∃ s s' : Pool,
    exec (Pool.step .watched) (Pool.init .watched 0) stallQuarantine = some s ∧
    (s.ctl.w 0).state = .quarantined ∧ s.ctl.quarantined = true ∧ (s.ring 0).closed = true ∧
    (s.ctl.w 0).spawned = 1 ∧
    exec (Pool.step .watched) s (returnsLate ++ turns (.worker 0 0) 1 ++ turns .sup 32) = some s' ∧
    (s'.ctl.w 0).state = .starting ∧ (s'.ring 0).closed = false ∧ (s'.ctl.w 0).spawned = 2 := by
  have hrun : (exec (Pool.step .watched) (Pool.init .watched 0) stallQuarantine).any (fun s ↦
      decide ((s.ctl.w 0).state = .quarantined ∧ s.ctl.quarantined = true ∧
        (s.ring 0).closed = true ∧ (s.ctl.w 0).spawned = 1) &&
      (exec (Pool.step .watched) s
        (returnsLate ++ turns (.worker 0 0) 1 ++ turns .sup 32)).any fun s' ↦
          decide ((s'.ctl.w 0).state = .starting ∧ (s'.ring 0).closed = false ∧
            (s'.ctl.w 0).spawned = 2)) = true := by decide +kernel
  obtain ⟨s, hs, hP⟩ := exec_any hrun
  rw [Bool.and_eq_true] at hP
  obtain ⟨s', hs', hP'⟩ := exec_any hP.2
  obtain ⟨hq, hflag, hclosed, hone⟩ := of_decide_eq_true hP.1
  obtain ⟨hstarting, hopen, htwo⟩ := of_decide_eq_true hP'
  exact ⟨s, s', hs, hq, hflag, hclosed, hone, hs', hstarting, hopen, htwo⟩

end Awp
