import AsyncWorkerPool.Foundation.Mutex
import AsyncWorkerPool.Pool.Reclaim

/-!
# Publish — what a shutdown call does after `STOPPED`

`awp_pool_destroy` waits under `life_mu` until `shutdown_waiters` is 0.  That covers the calls that
wait, and the executor as long as it is in the critical section in which it publishes `STOPPED`; but
the executor goes on to read `shutdown_aborts` and `quarantined`, which nothing covers.
-/

open Foundation

namespace Awp

/-- Where a shutdown call holds `life_mu`. -/
def ShutPc.locked : ShutPc → Bool
  | .waitInc | .waitLife | .waitAborts | .waitQuarantined | .waitDec _ | .waitBroadcast _
  | .waitUnlock _ | .quiesceBroadcast | .quiesceUnlock | .lifeStore _ _ | .lifeBroadcast _ _
  | .lifeUnlock _ _ => true
  | _ => false

def DestroyPc.locked : DestroyPc → Bool
  | .waiters | .unlock => true
  | .shut p => p.locked
  | _ => false

def SupPc.locked : SupPc → Bool
  | .exitBroadcast | .exitUnlock => true
  | _ => false

def Pc.locked : Pc → Bool
  | .shut p => p.locked
  | .destroy p => p.locked
  | .sup p => p.locked
  | _ => false

/-- Where `shutdown_waiters` counts a call. -/
def ShutPc.waits : ShutPc → Bool
  | .waitLife | .waitBlocked _ | .waitRelock | .waitAborts | .waitQuarantined | .waitDec _ => true
  | _ => false

def Pc.waits (pc : Pc) : Bool := pc.shut?.any ShutPc.waits

/-- The call has been counted, and waits or is about to leave. -/
def ShutPc.counted (p : ShutPc) : Bool :=
  match p with
  | .waitBroadcast _ | .waitUnlock _ => true
  | p => p.waits

/-- The executor after its last critical section, and any call that has returned. -/
def ShutPc.out : ShutPc → Bool
  | .tailAborts _ | .tailQuarantined | .done _ => true
  | _ => false

/-- A call that comes to its end without entering the pool anew. -/
def ShutPc.ends (p : ShutPc) : Bool :=
  match p with
  | .lifeBroadcast _ true | .lifeUnlock _ true => true
  | p => p.counted || p.out

section Own

variable {c : Config} {m m' : Ctl} {p p' : ShutPc} {active : Int} {me : Agent} {l : Loc Nat Nat}
  {x : Choice} {k : Cmd} {e : Exec}

theorem Exec.teardown_locked (e : Exec) : e.teardown.locked = false ∧ e.teardown.waits = false := by
  rw [Exec.teardown]
  split <;> exact ⟨rfl, rfl⟩

theorem Exec.workerHead_locked (e : Exec) (i : Nat) :
    (e.workerHead c i).locked = false ∧ (e.workerHead c i).waits = false := by
  rw [Exec.workerHead]
  split <;> exact ⟨rfl, rfl⟩

theorem Exec.lateHead_locked (e : Exec) (i : Nat) :
    (e.lateHead c i).locked = false ∧ (e.lateHead c i).waits = false := by
  rw [Exec.lateHead]
  split <;> exact ⟨rfl, rfl⟩

theorem MarkFor.after_locked (e : Exec) (v : MarkFor) :
    (v.after e).locked = false ∧ (v.after e).waits = false := by
  cases v <;> exact ⟨rfl, rfl⟩

theorem MarkFor.noted_locked (e : Exec) (v : MarkFor) :
    (v.noted e).locked = false ∧ (v.noted e).waits = false := by
  cases v with
  | sup => exact Exec.teardown_locked _
  | _ => exact ⟨rfl, rfl⟩

/-- What a step does about `life_mu` and `shutdown_waiters`. -/
def Handshake (me : Agent) (m m' : Ctl) (p p' : ShutPc) : Prop :=
  Turn me m.lifeMu m'.lifeMu p.locked p'.locked ∧
    m'.shutdownWaiters = m.shutdownWaiters + p'.waits.toInt - p.waits.toInt

/-- It does nothing about them. -/
theorem Handshake.keep (hmu : m'.lifeMu = m.lifeMu) (hw : m'.shutdownWaiters = m.shutdownWaiters)
    (hp : p.locked = p'.locked ∧ p.waits = p'.waits) : Handshake me m m' p p' := by
  rw [Handshake, hmu, hw, hp.1, hp.2]
  exact ⟨.keep, by omega⟩

theorem Ctl.lockLife_turn {m₁ : Ctl} (h : m.lockLife me = some m₁) :
    Turn me m.lifeMu m₁.lifeMu false true ∧ m₁.shutdownWaiters = m.shutdownWaiters := by
  obtain ⟨hnone, rfl⟩ := Ctl.lockLife_eq h
  rw [hnone]
  exact ⟨.acquire, rfl⟩

theorem ShutPc.next_handshake (hn : p.next c m active me l x = some (m', p', k)) :
    Handshake me m m' p p' := by
  cases p with
  | waitLock | waitRelock | quiesceLock | lifeLock e last =>
    simp only [ShutPc.next, Option.map_eq_some_iff, Prod.mk.injEq] at hn
    obtain ⟨m₁, hm, rfl, rfl, -⟩ := hn
    obtain ⟨hturn, hw⟩ := Ctl.lockLife_turn hm
    exact ⟨hturn, by rw [hw]; exact (Int.add_sub_cancel _ _).symm⟩
  | waitInc =>
    obtain ⟨rfl, rfl, rfl⟩ := outcome_inj hn
    exact ⟨.keep, (Int.sub_zero _).symm⟩
  | waitLife =>
    simp only [ShutPc.next] at hn
    split at hn <;> cases hn
    · exact .keep rfl rfl ⟨rfl, rfl⟩
    · exact ⟨.release, (Int.add_sub_cancel _ _).symm⟩
  | waitBlocked ticket =>
    simp only [ShutPc.next] at hn
    split at hn <;> cases hn
    exact .keep rfl rfl ⟨rfl, rfl⟩
  | waitAborts =>
    obtain ⟨rfl, rfl, rfl⟩ := outcome_inj hn
    refine .keep rfl rfl ?_
    split <;> exact ⟨rfl, rfl⟩
  | waitDec v =>
    obtain ⟨rfl, rfl, rfl⟩ := outcome_inj hn
    exact ⟨.keep, by simp [ShutPc.waits]⟩
  | waitUnlock v =>
    obtain ⟨rfl, rfl, rfl⟩ := outcome_inj hn
    exact ⟨.release, (Int.add_sub_cancel _ _).symm⟩
  | quiesceUnlock =>
    obtain ⟨rfl, rfl, rfl⟩ := outcome_inj hn
    exact ⟨.release, (Int.add_sub_cancel _ _).symm⟩
  | lifeUnlock e last =>
    obtain ⟨rfl, rfl, rfl⟩ := outcome_inj hn
    cases last <;> exact ⟨.release, (Int.add_sub_cancel _ _).symm⟩
  | start =>
    obtain ⟨rfl, rfl, rfl⟩ := outcome_inj hn
    refine .keep rfl rfl ?_
    cases m.lifecycle <;> exact ⟨rfl, rfl⟩
  | cas life =>
    simp only [ShutPc.next] at hn
    split at hn <;> cases hn <;> exact .keep rfl rfl ⟨rfl, rfl⟩
  | timeoutClose e i | closeAll e i | lateClose e i =>
    simp only [ShutPc.next] at hn
    split at hn
    · obtain ⟨rfl, rfl | rfl⟩ := closeCall_cases hn <;> exact .keep rfl rfl ⟨rfl, rfl⟩
    · cases hn
      exact .keep rfl rfl ⟨rfl, rfl⟩
  | stopClose e i =>
    obtain ⟨rfl, rfl | rfl⟩ := closeCall_cases hn <;> exact .keep rfl rfl ⟨rfl, rfl⟩
  | drainPop e i =>
    have hhead := e.workerHead_locked (c := c) (i + 1)
    cases l with
    | idle =>
      obtain ⟨rfl, rfl, rfl⟩ := outcome_inj hn
      exact .keep rfl rfl ⟨rfl, rfl⟩
    | ret v =>
      cases v with
      | popped q out =>
        cases out <;> cases hn
        · exact .keep rfl rfl ⟨hhead.1.symm, hhead.2.symm⟩
        · exact .keep rfl rfl ⟨rfl, rfl⟩
      | rc n =>
        obtain ⟨rfl, rfl, rfl⟩ := outcome_inj hn
        exact .keep rfl rfl ⟨hhead.1.symm, hhead.2.symm⟩
      | _ => cases hn
    | _ => cases hn
  | joinCreate e t =>
    cases x with
    | go =>
      obtain ⟨rfl, rfl, rfl⟩ := outcome_inj hn
      exact .keep rfl rfl ⟨rfl, rfl⟩
    | rc n =>
      simp only [ShutPc.next] at hn
      split at hn <;> cases hn
      cases t <;> exact .keep rfl rfl ⟨rfl, rfl⟩
    | _ => cases hn
  | joinClock e t | joinPollClock e t b =>
    obtain ⟨rfl, rfl, rfl⟩ := outcome_inj hn
    refine .keep rfl rfl ?_
    split <;> cases t <;> exact ⟨rfl, rfl⟩
  | joinPoll e t b =>
    obtain ⟨rfl, rfl, rfl⟩ := outcome_inj hn
    refine .keep rfl rfl ?_
    cases m.box b with
    | none => exact ⟨rfl, rfl⟩
    | some rc =>
      simp only
      split <;> cases t <;> exact ⟨rfl, rfl⟩
  | mark e v =>
    obtain ⟨rfl, rfl, rfl⟩ := outcome_inj hn
    exact .keep rfl rfl ⟨rfl, rfl⟩
  | markFrames e v =>
    obtain ⟨rfl, rfl, rfl⟩ := outcome_inj hn
    exact .keep rfl rfl ⟨(v.after_locked e).1.symm, (v.after_locked e).2.symm⟩
  | noteAbort e v =>
    obtain ⟨rfl, rfl, rfl⟩ := outcome_inj hn
    exact .keep rfl rfl ⟨(v.noted_locked _).1.symm, (v.noted_locked _).2.symm⟩
  | supJoinedLoad e =>
    obtain ⟨rfl, rfl, rfl⟩ := outcome_inj hn
    refine .keep rfl rfl ?_
    split
    · exact ⟨rfl, rfl⟩
    · exact ⟨e.teardown_locked.1.symm, e.teardown_locked.2.symm⟩
  | supSetJoined e =>
    obtain ⟨rfl, rfl, rfl⟩ := outcome_inj hn
    exact .keep rfl rfl ⟨e.teardown_locked.1.symm, e.teardown_locked.2.symm⟩
  | closeFrames e =>
    obtain ⟨rfl, rfl, rfl⟩ := outcome_inj hn
    exact .keep rfl rfl ⟨(e.workerHead_locked 0).1.symm, (e.workerHead_locked 0).2.symm⟩
  | drainState e i | drainClock e i =>
    obtain ⟨rfl, rfl, rfl⟩ := outcome_inj hn
    refine .keep rfl rfl ?_
    split <;> first
      | exact ⟨rfl, rfl⟩
      | exact ⟨(e.workerHead_locked _).1.symm, (e.workerHead_locked _).2.symm⟩
  | lateStarting e i =>
    obtain ⟨rfl, rfl, rfl⟩ := outcome_inj hn
    refine .keep rfl rfl ?_
    split
    · exact ⟨rfl, rfl⟩
    · exact ⟨(e.lateHead_locked _).1.symm, (e.lateHead_locked _).2.symm⟩
  | lateStore e i =>
    obtain ⟨rfl, rfl, rfl⟩ := outcome_inj hn
    exact .keep rfl rfl ⟨(e.lateHead_locked _).1.symm, (e.lateHead_locked _).2.symm⟩
  | anyQuarantined e i =>
    simp only [ShutPc.next] at hn
    split at hn <;> cases hn
    · refine .keep rfl rfl ?_
      split <;> exact ⟨rfl, rfl⟩
    · exact .keep rfl rfl ⟨rfl, rfl⟩
  | done rc => cases hn
  | _ =>
    obtain ⟨rfl, rfl, rfl⟩ := outcome_inj hn
    refine .keep rfl rfl ?_
    first | exact ⟨rfl, rfl⟩ | (split <;> first | exact ⟨rfl, rfl⟩ | (split <;> exact ⟨rfl, rfl⟩))

theorem ShutPc.next_out (hp : p.out = true) (hn : p.next c m active me l x = some (m', p', k)) :
    p'.out = true := by
  cases p with
  | tailAborts e =>
    obtain ⟨rfl, rfl, rfl⟩ := outcome_inj hn
    split <;> rfl
  | tailQuarantined =>
    obtain ⟨rfl, rfl, rfl⟩ := outcome_inj hn
    rfl
  | done rc => cases hn
  | _ => cases hp

theorem ShutPc.next_ends (hp : p.ends = true) (hn : p.next c m active me l x = some (m', p', k)) :
    p'.ends = true := by
  cases p with
  | waitLife | waitBlocked ticket =>
    simp only [ShutPc.next] at hn
    split at hn <;> cases hn <;> rfl
  | waitRelock =>
    simp only [ShutPc.next, Option.map_eq_some_iff, Prod.mk.injEq] at hn
    obtain ⟨m₁, -, -, rfl, -⟩ := hn
    rfl
  | waitAborts | tailAborts e =>
    obtain ⟨rfl, rfl, rfl⟩ := outcome_inj hn
    split <;> rfl
  | waitQuarantined | waitDec v | waitBroadcast v | waitUnlock v | tailQuarantined =>
    obtain ⟨rfl, rfl, rfl⟩ := outcome_inj hn
    rfl
  | lifeBroadcast e last | lifeUnlock e last =>
    cases last
    · cases hp
    · cases hn
      rfl
  | done rc => cases hn
  | _ => cases hp

/-- Nothing keeps such a call in the pool but the lock and the count of the waiters. -/
theorem ShutPc.out_of_ends (hp : p.ends = true) (hlock : p.locked = false) (hw : p.waits = false) :
    p.out = true := by
  cases p with
  | tailAborts e | tailQuarantined | done rc => rfl
  | waitBroadcast v | waitUnlock v | lifeBroadcast e last | lifeUnlock e last => cases hlock
  | waitLife | waitBlocked ticket | waitRelock | waitAborts | waitQuarantined | waitDec v => cases hw
  | _ => cases hp

/-- The executor of a pool that has stopped is in its last critical section, or past it. -/
theorem ShutPc.ends_of_stopped (hx : p.executes = true) (hd : p.Dated m)
    (hstop : m.lifecycle = .stopped) : p.ends = true := by
  have hera : ∀ life, p.era = some life → life = .stopped := fun life hl ↦
    (hd life hl).symm.trans hstop
  cases p with
  | lifeLock e last | lifeStore e last =>
    cases last with
    | true => cases hera .draining rfl
    | false => cases hera .quiescing rfl
  | lifeBroadcast e last | lifeUnlock e last =>
    cases last with
    | true => rfl
    | false => cases hera .draining rfl
  | mark e v | markFrames e v | noteAbort e v =>
    cases v with
    | active => cases hera .quiescing rfl
    | _ => cases hera .draining rfl
  | tailAborts e | tailQuarantined => rfl
  | quiesceLock | quiesceBroadcast | quiesceUnlock | now | activeLoop | activeClock | activeTest
  | timeoutClose | supStop => cases hera .quiescing rfl
  | start | obsAborts | obsQuarantined | cas | waitLock | waitInc | waitLife | waitBlocked
  | waitRelock | waitAborts | waitQuarantined | waitDec | waitBroadcast | waitUnlock | done =>
    cases hx
  | _ => cases hera .draining rfl

end Own

section Others

variable {c : Config} {m m' : Ctl} {l : Loc Nat Nat} {x : Choice} {k : Cmd}

/-- `awp_pool_destroy` has seen `shutdown_waiters` at 0. -/
def DestroyPc.passed : DestroyPc → Bool
  | .cas | .lifeLoad | .shut _ | .lock | .waiters | .blocked _ | .relock | .refused => false
  | _ => true

theorem DestroyPc.next_lock {p p' : DestroyPc} {d : Dat} {me : Agent}
    (hn : p.next c m d me l x = some (m', p', k)) (hfrom : ∀ q, p = .shut q → ∃ rc, q = .done rc) :
    Turn me m.lifeMu m'.lifeMu p.locked p'.locked := by
  cases p with
  | lock | relock =>
    simp only [DestroyPc.next, Option.map_eq_some_iff, Prod.mk.injEq] at hn
    obtain ⟨m₁, hm, rfl, rfl, -⟩ := hn
    exact (Ctl.lockLife_turn hm).1
  | waiters =>
    simp only [DestroyPc.next] at hn
    split at hn <;> cases hn
    · exact .release
    · exact .keep
  | unlock =>
    obtain ⟨rfl, rfl, rfl⟩ := outcome_inj hn
    exact .release
  | shut q =>
    obtain ⟨rc, rfl⟩ := hfrom q rfl
    obtain ⟨rfl, rfl, rfl⟩ := outcome_inj hn
    exact .keep
  | cas | blocked ticket =>
    simp only [DestroyPc.next] at hn
    split at hn <;> cases hn <;> exact .keep
  | ckWorker i | joined i =>
    simp only [DestroyPc.next] at hn
    split at hn <;> cases hn
    · split <;> exact .keep
    · exact .keep
  | refs spins =>
    obtain ⟨rfl, rfl, rfl⟩ := outcome_inj hn
    split
    · split <;> exact .keep
    · exact .keep
  | released | leaked | refused => cases hn
  | lifeLoad | ckQuarantined | ckActive | ckRefs | ckSup | state i =>
    obtain ⟨rfl, rfl, rfl⟩ := outcome_inj hn
    split <;> exact .keep
  | _ =>
    obtain ⟨rfl, rfl, rfl⟩ := outcome_inj hn
    exact .keep

theorem DestroyPc.next_passed {p p' : DestroyPc} {d : Dat} {me : Agent}
    (hn : p.next c m d me l x = some (m', p', k)) (hp' : p'.passed = true) :
    p.passed = true ∨ (p = .waiters ∧ m.shutdownWaiters ≤ 0) := by
  cases p with
  | waiters =>
    simp only [DestroyPc.next] at hn
    split at hn <;> cases hn
    · cases hp'
    · rename_i hw
      exact Or.inr ⟨rfl, not_lt.mp hw⟩
  | cas | blocked ticket =>
    simp only [DestroyPc.next] at hn
    split at hn <;> cases hn <;> cases hp'
  | lock | relock =>
    simp only [DestroyPc.next, Option.map_eq_some_iff, Prod.mk.injEq] at hn
    obtain ⟨m₁, -, -, rfl, -⟩ := hn
    cases hp'
  | lifeLoad =>
    obtain ⟨rfl, rfl, rfl⟩ := outcome_inj hn
    split at hp' <;> cases hp'
  | shut q =>
    rcases DestroyPc.next_frame hn with ⟨q, q', -, rfl, -⟩ | ⟨-, hfrom, -⟩
    · cases hp'
    · obtain ⟨rc, rfl⟩ := hfrom q rfl
      obtain ⟨rfl, rfl, rfl⟩ := outcome_inj hn
      cases hp'
  | refused => cases hn
  | _ => exact Or.inl rfl

theorem Round.head_locked (r : Round) : (r.head c).locked = false := by
  rw [Round.head]
  split <;> rfl

theorem Round.next_locked (r : Round) : (r.next c).locked = false := Round.head_locked _

theorem Ask.answer_locked (q : Ask) (b : Bool) : (q.answer c b).locked = false := by
  cases q <;> cases b <;> first | rfl | exact Round.next_locked _

theorem Round.inspect_locked (r : Round) (st : WState) (last : Nat) :
    (r.inspect c st last).locked = false := by
  simp only [Round.inspect]
  repeat' split
  all_goals first | rfl | exact Round.next_locked _

theorem SupPc.next_lock {ended : Agent → Bool} {p p' : SupPc}
    (hn : p.next c m ended l x = some (m', p', k)) :
    Turn .sup m.lifeMu m'.lifeMu p.locked p'.locked := by
  -- where the supervisor leaves the lock alone
  have hkeep : m'.lifeMu = m.lifeMu → p.locked = false → p'.locked = false →
      Turn .sup m.lifeMu m'.lifeMu p.locked p'.locked := by
    intro hm hp hp'
    rw [hm, hp, hp']
    exact .keep
  cases p with
  | exitLock =>
    simp only [SupPc.next] at hn
    split at hn <;> cases hn
    rename_i hnone
    rw [hnone]
    exact .acquire
  | exitBroadcast =>
    obtain ⟨rfl, rfl, rfl⟩ := outcome_inj hn
    exact .keep
  | exitUnlock =>
    obtain ⟨rfl, rfl, rfl⟩ := outcome_inj hn
    exact .release
  | ask q =>
    obtain ⟨rfl, rfl, rfl⟩ := outcome_inj hn
    refine hkeep rfl rfl ?_
    split
    · rfl
    · exact q.answer_locked _
  | askStop q =>
    obtain ⟨rfl, rfl, rfl⟩ := outcome_inj hn
    exact hkeep rfl rfl (q.answer_locked _)
  | now =>
    obtain ⟨rfl, rfl, rfl⟩ := outcome_inj hn
    exact hkeep rfl rfl (Round.head_locked _)
  | progress r st =>
    obtain ⟨rfl, rfl, rfl⟩ := outcome_inj hn
    exact hkeep rfl rfl (r.inspect_locked st _)
  | healthy r | quarAbort r | joinFailFrames r | restarted r | failStop r =>
    obtain ⟨rfl, rfl, rfl⟩ := outcome_inj hn
    exact hkeep rfl rfl r.next_locked
  | quarClose r | reclose r | postClose r | reopen r | failClose r =>
    obtain ⟨rfl, rfl | rfl⟩ := ringCall_cases hn
    · exact hkeep rfl rfl rfl
    · exact hkeep rfl rfl (by first | rfl | exact r.next_locked)
  | stallDepth r last =>
    have hp' : m' = m ∧ (p' = .stallDepth r last ∨ p' = .stallStop r last ∨ p' = r.next c) := by
      cases l <;> simp only [SupPc.next] at hn <;> grind
    obtain ⟨rfl, rfl | rfl | rfl⟩ := hp'
    · exact hkeep rfl rfl rfl
    · exact hkeep rfl rfl rfl
    · exact hkeep rfl rfl r.next_locked
  | join r | create r =>
    cases x with
    | go =>
      simp only [SupPc.next] at hn
      first | cases hn | (split at hn <;> cases hn)
      exact hkeep rfl rfl rfl
    | rc n =>
      simp only [SupPc.next] at hn
      split at hn <;> cases hn
      exact hkeep rfl rfl rfl
    | _ => cases hn
  | sliceClock r | graceState r last u | graceClock r last u | graceProgress r last u
  | afterExited r last | afterRunning r last | afterStop r last | afterProgress r last
  | joinedLoad r =>
    obtain ⟨rfl, rfl, rfl⟩ := outcome_inj hn
    refine hkeep rfl rfl ?_
    split <;> rfl
  | returned => cases hn
  | _ =>
    obtain ⟨rfl, rfl, rfl⟩ := outcome_inj hn
    exact hkeep rfl rfl rfl

end Others

section Run

variable {c : Config} {s s' : Pool}

/-- The two words that `awp_pool_destroy` waits on mean what they should. -/
structure Pool.Latched (s : Pool) : Prop where
  lock : Guards s.ctl.lifeMu fun a ↦ (s.thr a).pc.locked
  waiters : Counted (fun a ↦ (s.thr a).pc.waits = true) s.ctl.shutdownWaiters

theorem Pool.Latched.init (now : Nat) : (Pool.init c now).Latched where
  lock := .init fun a ↦ by cases a <;> rfl
  waiters := .zero fun a ↦ by cases a <;> simp [Pool.init, Pc.waits, Pc.shut?]

theorem Pool.Latched.congr (h : s.Latched) (hpc : ∀ a, (s'.thr a).pc = (s.thr a).pc)
    (hmu : s'.ctl.lifeMu = s.ctl.lifeMu) (hw : s'.ctl.shutdownWaiters = s.ctl.shutdownWaiters) :
    s'.Latched where
  lock := by simpa only [hpc, hmu] using h.lock
  waiters := by simpa only [hpc, hw] using h.waiters

theorem Pool.Latched.moved (h : s.Latched) {m : Ctl} {d : Dat} {a : Agent} {pc : Pc} {sh : Nat}
    {l : Loc Nat Nat} (hturn : Turn a s.ctl.lifeMu m.lifeMu (s.thr a).pc.locked pc.locked)
    (hcount : m.shutdownWaiters =
      s.ctl.shutdownWaiters + pc.waits.toInt - (s.thr a).pc.waits.toInt) :
    (s.moved m d a pc sh l).Latched where
  lock := h.lock.turn (a := a) (by simpa using hturn) fun b hb ↦ by rw [Pool.moved_of_ne hb]
  waiters := h.waiters.move (b := a) (fun b hb ↦ by rw [Pool.moved_of_ne hb]) (by simpa using hcount)

/-- A party moves that has nothing to do with the two words. -/
theorem Pool.Latched.aside (h : s.Latched) {m : Ctl} {d : Dat} {a : Agent} {pc : Pc} {sh : Nat}
    {l : Loc Nat Nat} (hmu : m.lifeMu = s.ctl.lifeMu)
    (hw : m.shutdownWaiters = s.ctl.shutdownWaiters) (hlock : pc.locked = (s.thr a).pc.locked)
    (hwaits : pc.waits = (s.thr a).pc.waits) : (s.moved m d a pc sh l).Latched :=
  h.moved (by rw [hmu, hlock]; exact .keep) (by rw [hw, hwaits]; omega)

theorem Pool.Latched.step (h : s.Latched) (hs : Seated c s) {e : Label}
    (hst : s.step c e = some s') : s'.Latched := by
  cases Pool.step_act hs hst with
  | tick t => exact h.congr (fun _ ↦ rfl) rfl rfl
  | access a x spurious r l hact hstep => exact h.congr (fun _ ↦ Pool.accessed_pc) rfl rfl
  | call n pool f hidle | destroyed n hidle =>
    exact h.aside rfl rfl (by rw [hidle]; rfl) (by rw [hidle]; rfl)
  | shutdown n tls hidle =>
    exact h.aside rfl rfl (by rw [hidle]; cases tls <;> rfl) (by rw [hidle]; cases tls <;> rfl)
  | api n x hp hn hk => exact h.aside rfl rfl (by rw [hp]; rfl) (by rw [hp]; rfl)
  | worker i j x hi hj hp hn hk =>
    have hframe := (WorkerPc.next_frame hn).1.1
    have hmu := congrArg Ctl.lifeMu hframe
    have hw := congrArg Ctl.shutdownWaiters hframe
    exact h.aside hmu hw (by rw [hp]; rfl) (by rw [hp]; rfl)
  | helper j x hj hp hn hk =>
    have hframe := HelperPc.next_frame hn
    have hmu := congrArg Ctl.lifeMu hframe
    have hw := congrArg Ctl.shutdownWaiters hframe
    exact h.aside hmu hw (by rw [hp]; rfl) (by rw [hp]; rfl)
  | sup x he hp hn hk =>
    have hw := congrArg Ctl.shutdownWaiters (SupPc.next_frame hn).1
    refine h.moved (by rw [hp]; exact SupPc.next_lock hn) ?_
    rw [hp]
    exact hw.trans (Int.add_sub_cancel _ _).symm
  | shut n x hw hp hn hk =>
    obtain ⟨hturn, hcount⟩ := ShutPc.next_handshake hn
    cases hw with
    | shut | destroy => exact h.moved (by rw [hp]; exact hturn) (by rw [hp]; exact hcount)
  | destroy n x hp hn hfrom hto hframe hk =>
    rename_i p p' m k sh l
    have hw := congrArg Ctl.shutdownWaiters hframe
    have hfresh : ∀ q : DestroyPc, (∀ r, q = .shut r → (∃ rc, r = .done rc) ∨ r = .start) →
        (Pc.destroy q).waits = false := by
      intro q hq
      cases q with
      | shut r => rcases hq r rfl with ⟨rc, rfl⟩ | rfl <;> rfl
      | _ => rfl
    refine h.moved (by rw [hp]; exact DestroyPc.next_lock hn hfrom) ?_
    rw [hp, hfresh p fun r hr ↦ Or.inl (hfrom r hr), hfresh p' fun r hr ↦ Or.inr (hto r hr)]
    exact hw.trans (Int.add_sub_cancel _ _).symm

theorem Pool.Latched.run {ok : Pool → Label → Prop} {now : Nat}
    (hrun : Steps (Pool.step c) ok (Pool.init c now) s) : s.Latched :=
  hrun.invariant_under (P := Pool.Latched) (fun _ ht ↦ (Sound.run ht).seated)
    (fun _ _ _ hs _ h _ hst ↦ h.step hs hst) (.init now)

end Run

/-! ## One destroy call among the shutdown calls -/

def Pc.destroys : Pc → Bool
  | .destroy _ => true
  | _ => false

/-- A destroy call that has looked at the lifecycle. -/
def Pc.looked : Pc → Bool
  | .destroy .cas | .destroy .lifeLoad => false
  | pc => pc.destroys

/-- A shutdown call that a destroy call may meet. -/
def Pc.met : Pc → Bool
  | .shut (.done _) => true
  | .shut p => p.executes || p.counted
  | _ => true

def Pc.returned : Pc → Bool
  | .shut (.done _) => true
  | _ => false

/-- One call of `awp_pool_destroy`, which finds the pool stopped.  By then each call of
`awp_pool_shutdown` executes it, has been counted or has returned, and no other begins.  `every` is
how all calls are looked at. -/
def Concurrent (every : (Pc → Bool) → Prop) (s : Pool) : Label → Prop
  | .destroy _ => every fun pc ↦ !pc.destroys
  | .shutdown _ _ => every fun pc ↦ !pc.looked
  | .step (.api n) _ => (s.thr (.api n)).pc = .destroy .lifeLoad →
      s.ctl.lifecycle = .stopped ∧ every Pc.met
  | _ => True

/-- The storage is not released before the executing shutdown call has returned. -/
def Patient (s : Pool) : Label → Prop
  | .step (.api n) _ => (s.thr (.api n)).pc = .destroy .release →
      ∀ a ∈ s.ctl.executor, (s.thr a).pc.returned = true
  | _ => True

def Attended (every : (Pc → Bool) → Prop) (s : Pool) (e : Label) : Prop :=
  Concurrent every s e ∧ Patient s e

section Handover

variable {c : Config} {s s' : Pool}

theorem ShutPc.ends_of_met {p : ShutPc} {m : Ctl} (h : (Pc.shut p).met = true) (hd : p.Dated m)
    (hstop : m.lifecycle = .stopped) : p.ends = true := by
  cases hx : p.executes with
  | true => exact ShutPc.ends_of_stopped hx hd hstop
  | false => cases p <;> first | rfl | (cases hx; done) | cases h

section Destroy

variable {m m' : Ctl} {d : Dat} {me : Agent} {l : Loc Nat Nat} {x : Choice} {k : Cmd}
  {p p' : DestroyPc}

/-- The shutdown within a destroy call begins in one place, and so does the release. -/
theorem DestroyPc.next_origin (hn : p.next c m d me l x = some (m', p', k)) :
    (∀ q, p' = .shut q → p = .lifeLoad ∨ ∃ q', p = .shut q') ∧ (p' = .released → p = .release) := by
  cases p with
  | lifeLoad =>
    refine ⟨fun _ _ ↦ Or.inl rfl, fun hp' ↦ ?_⟩
    obtain ⟨rfl, rfl, rfl⟩ := outcome_inj hn
    split at hp' <;> cases hp'
  | shut q =>
    refine ⟨fun _ _ ↦ Or.inr ⟨q, rfl⟩, fun hp' ↦ ?_⟩
    rcases DestroyPc.next_frame hn with ⟨q, q', -, rfl, -⟩ | ⟨-, hfrom, -⟩
    · cases hp'
    · obtain ⟨rc, rfl⟩ := hfrom q rfl
      obtain ⟨rfl, rfl, rfl⟩ := outcome_inj hn
      cases hp'
  | release =>
    obtain ⟨rfl, rfl, rfl⟩ := outcome_inj hn
    simp
  | released | leaked | refused => cases hn
  | lock | relock =>
    simp only [DestroyPc.next, Option.map_eq_some_iff, Prod.mk.injEq] at hn
    obtain ⟨m₁, -, -, rfl, -⟩ := hn
    simp
  | cas | waiters | blocked ticket =>
    simp only [DestroyPc.next] at hn
    split at hn <;> cases hn <;> simp
  | ckWorker i | joined i =>
    simp only [DestroyPc.next] at hn
    split at hn <;> cases hn
    · split <;> simp
    · simp
  | refs spins =>
    obtain ⟨rfl, rfl, rfl⟩ := outcome_inj hn
    split
    · split <;> simp
    · simp
  | ckQuarantined | ckActive | ckRefs | ckSup | state i =>
    obtain ⟨rfl, rfl, rfl⟩ := outcome_inj hn
    split <;> simp
  | _ =>
    obtain ⟨rfl, rfl, rfl⟩ := outcome_inj hn
    simp

end Destroy

structure Pool.Handover (s : Pool) : Prop where
  sole : ∀ n p n' p', (s.thr (.api n)).pc = .destroy p → (s.thr (.api n')).pc = .destroy p' → n' = n
  direct : ∀ n q, (s.thr (.api n)).pc ≠ .destroy (.shut q)
  ends : ∀ n p, (s.thr (.api n)).pc = .destroy p → p.stopped = true →
    ∀ n' q, (s.thr (.api n')).pc = .shut q → q.ends = true
  out : ∀ n p, (s.thr (.api n)).pc = .destroy p → p.passed = true →
    ∀ n' q, (s.thr (.api n')).pc = .shut q → q.out = true
  freed : s.ctl.freed = true → (∃ n, (s.thr (.api n)).pc = .destroy .released) ∧
    ∀ n q, (s.thr (.api n)).pc = .shut q → ∃ rc, q = .done rc

theorem Pool.Handover.init (now : Nat) : (Pool.init c now).Handover where
  sole _ _ _ _ h := by cases h
  direct _ _ h := by cases h
  ends _ _ h := by cases h
  out _ _ h := by cases h
  freed h := by cases h

/-- No shutdown or destroy call moves. -/
theorem Pool.Handover.congr (h : s.Handover)
    (hpc : ∀ n, (s'.thr (.api n)).pc = (s.thr (.api n)).pc ∨
      ((∃ p, (s.thr (.api n)).pc = .api p) ∧ ∃ p, (s'.thr (.api n)).pc = .api p))
    (hfreed : s'.ctl.freed = s.ctl.freed) : s'.Handover := by
  have hback : ∀ {n pc}, (s'.thr (.api n)).pc = pc → (∀ p, pc ≠ .api p) →
      (s.thr (.api n)).pc = pc := by
    intro n pc hp hne
    rcases hpc n with heq | ⟨-, p, hp'⟩
    · exact heq.symm.trans hp
    · exact absurd (hp.symm.trans hp') (hne p)
  have hdestroy : ∀ {n p}, (s'.thr (.api n)).pc = .destroy p → (s.thr (.api n)).pc = .destroy p :=
    fun hp ↦ hback hp (by simp)
  have hshut : ∀ {n q}, (s'.thr (.api n)).pc = .shut q → (s.thr (.api n)).pc = .shut q :=
    fun hq ↦ hback hq (by simp)
  refine ⟨fun n p n' p' hp hp' ↦ ?_, fun n q hp ↦ ?_, fun n p hp hstop n' q hq ↦ ?_,
    fun n p hp hpass n' q hq ↦ ?_, fun hf ↦ ?_⟩
  · exact h.sole n p n' p' (hdestroy hp) (hdestroy hp')
  · exact h.direct n q (hdestroy hp)
  · exact h.ends n p (hdestroy hp) hstop n' q (hshut hq)
  · exact h.out n p (hdestroy hp) hpass n' q (hshut hq)
  · obtain ⟨⟨n, hn⟩, hdone⟩ := h.freed (hfreed.symm.trans hf)
    refine ⟨⟨n, ?_⟩, fun n q hq ↦ hdone n q (hshut hq)⟩
    rcases hpc n with heq | ⟨⟨p, hp⟩, -⟩
    · exact heq.trans hn
    · cases hn.symm.trans hp

/-- What a destroy call that moves on has to show about the shutdown calls. -/
theorem Pool.Handover.moved (h : s.Handover) {m : Ctl} {d : Dat} {n : Nat} {p p' : DestroyPc}
    {sh : Nat} {l : Loc Nat Nat} (hp : (s.thr (.api n)).pc = .destroy p)
    (hdirect : ∀ q, p' ≠ .shut q)
    (hends : p'.stopped = true → ∀ n' q, (s.thr (.api n')).pc = .shut q → q.ends = true)
    (hout : p'.passed = true → ∀ n' q, (s.thr (.api n')).pc = .shut q → q.out = true)
    (hfreed : m.freed = true → p' = .released ∧
      ∀ n' q, (s.thr (.api n')).pc = .shut q → ∃ rc, q = .done rc) :
    (s.moved m d (.api n) (.destroy p') sh l).Handover := by
  have hone : ∀ n' q, ((s.moved m d (.api n) (.destroy p') sh l).thr (.api n')).pc = .destroy q →
      n' = n ∧ q = p' := by
    intro n' q hq
    by_cases hne : n' = n
    · subst hne
      rw [Pool.moved_self, Pc.destroy.injEq] at hq
      exact ⟨rfl, hq.symm⟩
    · rw [Pool.moved_of_ne (by simpa using hne)] at hq
      exact absurd (h.sole n p n' q hp hq) hne
  have hshut : ∀ n' q, ((s.moved m d (.api n) (.destroy p') sh l).thr (.api n')).pc = .shut q →
      (s.thr (.api n')).pc = .shut q := by
    intro n' q hq
    by_cases hne : n' = n
    · subst hne
      rw [Pool.moved_self] at hq
      cases hq
    · rwa [Pool.moved_of_ne (by simpa using hne)] at hq
  refine ⟨fun n₁ p₁ n₂ p₂ hp₁ hp₂ ↦ ?_, fun n' q hq ↦ ?_, fun n' q hq hstop n'' r hr ↦ ?_,
    fun n' q hq hpass n'' r hr ↦ ?_, fun hf ↦ ?_⟩
  · rw [(hone n₁ p₁ hp₁).1, (hone n₂ p₂ hp₂).1]
  · exact hdirect q (hone n' _ hq).2.symm
  · rw [(hone n' q hq).2] at hstop
    exact hends hstop n'' r (hshut n'' r hr)
  · rw [(hone n' q hq).2] at hpass
    exact hout hpass n'' r (hshut n'' r hr)
  · obtain ⟨rfl, hdone⟩ := hfreed hf
    exact ⟨⟨n, by rw [Pool.moved_self]⟩, fun n' q hq ↦ hdone n' q (hshut n' q hq)⟩

theorem Pool.Handover.step (h : s.Handover) (hs : Sound c s) (hdated : s.Dated) (hlatched : s.Latched)
    {e : Label} (he : Attended s.Every s e) (hst : s.step c e = some s') : s'.Handover := by
  cases Pool.step_act hs.seated hst with
  | tick t => exact h.congr (fun _ ↦ Or.inl rfl) rfl
  | access a x spurious r l hact hstep => exact h.congr (fun _ ↦ Or.inl Pool.accessed_pc) rfl
  | worker i j x hi hj hp hn hk =>
    have hf := congrArg Ctl.freed (WorkerPc.next_frame hn).1.1
    exact h.congr (fun n ↦ Or.inl (by rw [Pool.moved_of_ne (by simp)])) hf
  | sup x hen hp hn hk =>
    have hf := congrArg Ctl.freed (SupPc.next_frame hn).1
    exact h.congr (fun n ↦ Or.inl (by rw [Pool.moved_of_ne (by simp)])) hf
  | helper j x hj hp hn hk =>
    have hf := congrArg Ctl.freed (HelperPc.next_frame hn)
    exact h.congr (fun n ↦ Or.inl (by rw [Pool.moved_of_ne (by simp)])) hf
  | call n pool f hidle =>
    refine h.congr (fun n' ↦ ?_) rfl
    by_cases hne : n' = n
    · subst hne
      exact Or.inr ⟨⟨_, hidle⟩, _, by rw [Pool.moved_self]⟩
    · exact Or.inl (by rw [Pool.moved_of_ne (by simpa using hne)])
  | api n x hp hn hk =>
    refine h.congr (fun n' ↦ ?_) rfl
    by_cases hne : n' = n
    · subst hne
      exact Or.inr ⟨⟨_, hp⟩, _, by rw [Pool.moved_self]⟩
    · exact Or.inl (by rw [Pool.moved_of_ne (by simpa using hne)])
  | destroyed n hidle =>
    have hnone : ∀ n' q, (s.thr (.api n')).pc ≠ .destroy q := fun n' q hq ↦ by
      have hn' := he.1 n'
      rw [hq] at hn'
      cases hn'
    have hone : ∀ n' q, ((s.moved s.ctl s.dat (.api n) (.destroy .cas) (s.thr (.api n)).sh
        (s.thr (.api n)).loc).thr (.api n')).pc = .destroy q → n' = n ∧ q = .cas := by
      intro n' q hq
      by_cases hne : n' = n
      · subst hne
        rw [Pool.moved_self, Pc.destroy.injEq] at hq
        exact ⟨rfl, hq.symm⟩
      · rw [Pool.moved_of_ne (by simpa using hne)] at hq
        exact absurd hq (hnone n' q)
    refine ⟨fun n₁ p₁ n₂ p₂ hp₁ hp₂ ↦ ?_, fun n' q hq ↦ ?_, fun n' q hq hstop ↦ ?_,
      fun n' q hq hpass ↦ ?_, fun hf ↦ ?_⟩
    · rw [(hone n₁ p₁ hp₁).1, (hone n₂ p₂ hp₂).1]
    · cases (hone n' _ hq).2
    · rw [(hone n' q hq).2] at hstop
      cases hstop
    · rw [(hone n' q hq).2] at hpass
      cases hpass
    · obtain ⟨⟨n', hn'⟩, -⟩ := h.freed hf
      exact absurd hn' (hnone n' _)
  | shutdown n tls hidle =>
    -- the destroy call has not looked yet
    have hearly : ∀ n' p, (s.thr (.api n')).pc = .destroy p → p = .cas ∨ p = .lifeLoad := by
      intro n' p hp
      have hn' := he.1 n'
      rw [hp] at hn'
      cases p with
      | cas => exact Or.inl rfl
      | lifeLoad => exact Or.inr rfl
      | _ => cases hn'
    have hback : ∀ n' p, ((s.moved s.ctl s.dat (.api n) (.shut (if tls then .done edeadlk else .start))
        (s.thr (.api n)).sh (s.thr (.api n)).loc).thr (.api n')).pc = .destroy p →
        (s.thr (.api n')).pc = .destroy p ∧ (p = .cas ∨ p = .lifeLoad) := by
      intro n' p hp
      by_cases hne : n' = n
      · subst hne
        rw [Pool.moved_self] at hp
        cases hp
      · rw [Pool.moved_of_ne (by simpa using hne)] at hp
        exact ⟨hp, hearly n' p hp⟩
    refine ⟨fun n₁ p₁ n₂ p₂ hp₁ hp₂ ↦ ?_, fun n' q hq ↦ ?_, fun n' q hq hstop ↦ ?_,
      fun n' q hq hpass ↦ ?_, fun hf ↦ ?_⟩
    · exact h.sole n₁ p₁ n₂ p₂ (hback n₁ p₁ hp₁).1 (hback n₂ p₂ hp₂).1
    · exact h.direct n' q (hback n' _ hq).1
    · rcases (hback n' q hq).2 with rfl | rfl <;> cases hstop
    · rcases (hback n' q hq).2 with rfl | rfl <;> cases hpass
    · obtain ⟨⟨n', hn'⟩, -⟩ := h.freed hf
      rcases hearly n' _ hn' with hp | hp <;> cases hp
  | shut n x hw hp hn hk =>
    rename_i wrap q q' m k sh l
    cases hw with
    | destroy => exact absurd hp (h.direct n q)
    | shut =>
      have hback : ∀ n' p, ((s.moved m s.dat (.api n) (.shut q') sh l).thr (.api n')).pc =
          .destroy p → (s.thr (.api n')).pc = .destroy p := by
        intro n' p hp'
        by_cases hne : n' = n
        · subst hne
          rw [Pool.moved_self] at hp'
          cases hp'
        · rwa [Pool.moved_of_ne (by simpa using hne)] at hp'
      refine ⟨fun n₁ p₁ n₂ p₂ hp₁ hp₂ ↦ ?_, fun n' r hr ↦ ?_, fun n' p hp' hstop n'' r hr ↦ ?_,
        fun n' p hp' hpass n'' r hr ↦ ?_, fun hf ↦ ?_⟩
      · exact h.sole n₁ p₁ n₂ p₂ (hback n₁ p₁ hp₁) (hback n₂ p₂ hp₂)
      · exact h.direct n' r (hback n' _ hr)
      · have hold := h.ends n' p (hback n' p hp') hstop
        by_cases hne : n'' = n
        · subst hne
          rw [Pool.moved_self, Pc.shut.injEq] at hr
          subst hr
          exact ShutPc.next_ends (hold _ q hp) hn
        · rw [Pool.moved_of_ne (by simpa using hne)] at hr
          exact hold n'' r hr
      · have hold := h.out n' p (hback n' p hp') hpass
        by_cases hne : n'' = n
        · subst hne
          rw [Pool.moved_self, Pc.shut.injEq] at hr
          subst hr
          exact ShutPc.next_out (hold _ q hp) hn
        · rw [Pool.moved_of_ne (by simpa using hne)] at hr
          exact hold n'' r hr
      · -- nobody could have made this step any more
        have hkeep := congrArg Ctl.freed (ShutPc.next_frame hn).1
        obtain ⟨rc, rfl⟩ := (h.freed (hkeep.symm.trans hf)).2 n q hp
        cases hn
  | destroy n x hp hn hfrom hto hframe hk =>
    rename_i p p' m k sh l
    have hnot : ∀ q, p ≠ .shut q := by
      rintro q rfl
      exact h.direct n q hp
    -- its look at the lifecycle is the only way on
    have hload : p'.stopped = true → p.stopped = true ∨ p = .lifeLoad := fun hstop ↦ by
      cases p with
      | cas =>
        simp only [DestroyPc.next] at hn
        split at hn <;> cases hn <;> cases hstop
      | lifeLoad => exact Or.inr rfl
      | shut q => exact absurd rfl (hnot q)
      | refused => cases hn
      | _ => exact Or.inl rfl
    refine h.moved hp (fun q hq ↦ ?_) (fun hstop n' q hq ↦ ?_) (fun hpass n' q hq ↦ ?_) fun hf ↦ ?_
    · -- which it finds stopped
      subst hq
      cases p with
      | lifeLoad =>
        have hl := (he.1 hp).1
        simp only [DestroyPc.next, if_pos hl] at hn
        cases hn
      | _ =>
        rcases (DestroyPc.next_origin hn).1 q rfl with hq | ⟨q', hq⟩
        · cases hq
        · exact hnot q' hq
    · rcases hload hstop with hbefore | rfl
      · exact h.ends n p hp hbefore n' q hq
      · obtain ⟨hl, hall⟩ := he.1 hp
        have hmet := hall n'
        rw [hq] at hmet
        rcases hdated.calls n' q hq with hdq | rfl
        · exact ShutPc.ends_of_met hmet hdq hl
        · rfl
    · rcases DestroyPc.next_passed hn hpass with hbefore | ⟨rfl, hzero⟩
      · exact h.out n p hp hbefore n' q hq
      · -- it holds the lock, and counts nobody
        refine ShutPc.out_of_ends (h.ends n _ hp rfl n' q hq) ?_ ?_
        · by_contra hlock
          have hsole := hlatched.lock.sole (a := .api n) (b := .api n') (by rw [hp]; rfl)
            (by rw [hq]; exact Bool.of_not_eq_false hlock)
          rw [← hsole, hp] at hq
          cases hq
        · have hnone := hlatched.waiters.none_of_le_zero hzero (.api n')
          rw [hq] at hnone
          simpa [Pc.waits, Pc.shut?] using hnone
    · rcases DestroyPc.next_freed hn hfrom hf with rfl | hbefore
      · refine ⟨rfl, fun n' q hq ↦ ?_⟩
        have hrel : p = .release := (DestroyPc.next_origin hn).2 rfl
        subst hrel
        have hout := h.out n _ hp rfl n' q hq
        cases hx : q.executes with
        | true =>
          have hdone := he.2 hp _ (hs.executes n' q (by rw [hq]; rfl) hx)
          rw [hq] at hdone
          cases q with
          | done rc => exact ⟨rc, rfl⟩
          | _ => cases hdone
        | false =>
          cases q with
          | done rc => exact ⟨rc, rfl⟩
          | tailAborts | tailQuarantined => cases hx
          | _ => cases hout
      · obtain ⟨⟨n', hn'⟩, -⟩ := h.freed hbefore
        rw [h.sole n p n' _ hp hn', hp, Pc.destroy.injEq] at hn'
        subst hn'
        cases hn

theorem Pool.Handover.run {now : Nat} (hrun : Steps (Pool.step c) (fun s ↦ Attended s.Every s) (Pool.init c now) s) :
    s.Handover := by
  refine hrun.invariant_under (P := Pool.Handover)
    (Q := fun t ↦ Sound c t ∧ t.Dated ∧ t.Latched)
    (fun _ ht ↦ ⟨Sound.run ht, Pool.Dated.run ht, Pool.Latched.run ht⟩) ?_ (.init now)
  intro t e t' hQ _ h he hst
  exact h.step hQ.1 hQ.2.1 hQ.2.2 he hst

/-- **`STOPPED` is not published last.**  If `awp_pool_destroy` releases the storage only after the
executing shutdown call has returned, then all shutdown calls have returned by then.  But the
executor never makes `STOPPED` its last access: when it leaves the critical section, it still has a
load of `shutdown_aborts` to make. -/
theorem stopped_published_last {now : Nat}
    (hrun : Steps (Pool.step c) anyStep (Pool.init c now) s) :
    (Steps (Pool.step c) (fun s ↦ Attended s.Every s) (Pool.init c now) s → s.ctl.freed = true →
      ∀ n p, (s.thr (.api n)).pc = .shut p → ∃ rc, p = .done rc) ∧
    ∀ n e x s', (s.thr (.api n)).pc = .shut (.lifeUnlock e true) →
      s.step c (.step (.api n) x) = some s' →
      (s'.thr (.api n)).pc = .shut (.tailAborts e) ∧
        ∃ s'', s'.step c (.step (.api n) .go) = some s'' := by
  refine ⟨fun hattended hf ↦ ((Pool.Handover.run hattended).freed hf).2, fun n e x s' hp hst ↦ ?_⟩
  have hs := Sound.run hrun
  have hs' := hs.step hst
  have hpc : (s'.thr (.api n)).pc = .shut (.tailAborts e) := by
    cases Pool.step_act hs.seated hst with
    | access a x spurious r l hact hstep =>
      rw [hs.seated.not_active (by rw [hp]; rfl)] at hact
      cases hact
    | api n x hp' hn hk => cases hp.symm.trans hp'
    | destroy n x hp' hn hfrom hto hframe hk => cases hp.symm.trans hp'
    | shut n x hw hp' hn hk =>
      cases hw with
      | destroy => cases hp.symm.trans hp'
      | shut =>
        rw [hp, Pc.shut.injEq] at hp'
        subst hp'
        cases hn
        rw [Pool.moved_self]
        rfl
  refine ⟨hpc, ?_⟩
  have hfit := hs'.seated.fits (.api n)
  rw [hpc] at hfit
  have hl : (s'.thr (.api n)).loc = .idle := hfit
  simp only [Pool.step, Pool.exists, Pool.advance, Pool.next, hl, hpc, Loc.active]
  exact ⟨_, rfl⟩

end Handover

/-! ## Runs -/

instance {every : (Pc → Bool) → Prop} [∀ P, Decidable (every P)] (s : Pool) :
    (e : Label) → Decidable (Concurrent every s e)
  | .destroy _ | .shutdown _ _ => inferInstanceAs (Decidable (every _))
  | .step (.api n) _ => inferInstanceAs (Decidable ((s.thr (.api n)).pc = .destroy .lifeLoad →
      s.ctl.lifecycle = .stopped ∧ every Pc.met))
  | .tick _ | .call .. | .step (.worker ..) _ | .step .sup _ | .step (.helper _) _ =>
    inferInstanceAs (Decidable True)

instance (s : Pool) : (e : Label) → Decidable (Patient s e)
  | .step (.api n) _ => inferInstanceAs (Decidable ((s.thr (.api n)).pc = .destroy .release →
      ∀ a ∈ s.ctl.executor, (s.thr a).pc.returned = true))
  | .tick _ | .call .. | .shutdown .. | .destroy _ | .step (.worker ..) _ | .step .sup _
  | .step (.helper _) _ => inferInstanceAs (Decidable True)

instance {every : (Pc → Bool) → Prop} [∀ P, Decidable (every P)] (s : Pool) (e : Label) :
    Decidable (Attended every s e) := inferInstanceAs (Decidable (_ ∧ _))

/-- It is enough to look at the parties that make calls. -/
theorem Concurrent.widen {b : Nat} {s : Pool} {e : Label} (h : Concurrent (s.EveryBelow b) s e)
    (hidle : s.IdleFrom b) : Concurrent s.Every s e := by
  cases e with
  | destroy n =>
    have hall : s.EveryBelow b fun pc ↦ !pc.destroys := h
    exact hall.every hidle rfl
  | shutdown n tls =>
    have hall : s.EveryBelow b fun pc ↦ !pc.looked := h
    exact hall.every hidle rfl
  | step a x =>
    cases a with
    | api n => exact fun hp ↦ ⟨(h hp).1, (h hp).2.every hidle rfl⟩
    | _ => trivial
  | _ => trivial

/-- Party 0 shuts the pool down and joins its worker, as far as the end of `set_life`. -/
def stops : List Label :=
  turns (.api 0) 24 ++ turns (.worker 0 0) 10 ++ turns (.api 0) 6 ++ turns (.helper 0) 2 ++
    turns (.api 0) 19

/-- The storage is released while the executor still has to read it. -/
theorem executor_reads_freed : ∃ s, Steps (Pool.step .small) (fun s ↦ Concurrent s.Every s)
      (Pool.init .small 0) s ∧ s.ctl.freed = true ∧
    (∃ e, (s.thr (.api 0)).pc = .shut (.tailAborts e)) ∧
    ∃ s', s.step .small (.step (.api 0) .go) = some s' := by
  have hrun : (exec (guarded (Pool.step .small) fun s e ↦ e.below 2 = true ∧
      Concurrent (s.EveryBelow 2) s e) (Pool.init .small 0)
      (.shutdown 0 false :: stops ++ .destroy 1 :: turns (.api 1) 15)).any (fun s ↦
        s.ctl.freed && decide ((s.thr (.api 0)).pc = .shut (.tailAborts ⟨10000000, 0, true⟩)) &&
        (s.step .small (.step (.api 0) .go)).isSome) = true := by decide +kernel
  obtain ⟨s, hexec, hend⟩ := exec_any hrun
  simp only [Bool.and_eq_true, decide_eq_true_eq] at hend
  refine ⟨s, (exec_guarded_steps hexec).mono_under (Q := Pool.IdleFrom 2)
    (fun t ht ↦ Pool.IdleFrom.run (fun _ _ he ↦ he.1) ht) (fun t e hidle he ↦ he.2.widen hidle),
    hend.1.1, ⟨_, hend.1.2⟩, Option.isSome_iff_exists.mp hend.2⟩

/-- A waiter that has been counted, and a destroy call that begins when the executor has returned. -/
def stopsAndFrees : List Label :=
  [.shutdown 0 false, .shutdown 1 false] ++ turns (.api 0) 6 ++ turns (.api 1) 4 ++
    turns (.api 0) 18 ++ turns (.worker 0 0) 10 ++ turns (.api 0) 6 ++ turns (.helper 0) 2 ++
    turns (.api 0) 21 ++ .destroy 2 :: turns (.api 2) 4 ++ turns (.api 1) 8 ++ turns (.api 2) 14

theorem stopped_published_last_waiter : ∃ s, Steps (Pool.step .small)
      (fun s ↦ Attended s.Every s) (Pool.init .small 0) s ∧ s.ctl.freed = true ∧
    ∀ n p, (s.thr (.api n)).pc = .shut p → ∃ rc, p = .done rc := by
  have hrun : (exec (guarded (Pool.step .small) fun s e ↦ e.below 3 = true ∧
      Attended (s.EveryBelow 3) s e) (Pool.init .small 0) stopsAndFrees).any
      (fun s ↦ s.ctl.freed) = true := by decide +kernel
  obtain ⟨s, hexec, hfreed⟩ := exec_any hrun
  have hsteps : Steps (Pool.step .small) (fun s ↦ Attended s.Every s) (Pool.init .small 0) s :=
    (exec_guarded_steps hexec).mono_under (Q := Pool.IdleFrom 3)
      (fun t ht ↦ Pool.IdleFrom.run (fun _ _ he ↦ he.1) ht)
      (fun t e hidle he ↦ ⟨he.2.1.widen hidle, he.2.2⟩)
  exact ⟨s, hsteps, hfreed,
    (stopped_published_last (hsteps.mono fun _ _ _ ↦ trivial)).1 hsteps hfreed⟩

end Awp
