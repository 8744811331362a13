import AsyncWorkerPool.Pool.Supervisor

/-!
# Shutdown — `awp_pool_shutdown` with the deadline joins of `worker.c`

Observer, waiter and executor of a shutdown, one location per access.  The executor's locals
`deadline_ns`, `aborts` and `can_close` travel in `Exec`.  `awp_pthread_join_deadline` is seen from
the caller: the box of its helper is the helper's result, once there.
-/

namespace Awp

/-- The locals of the executing shutdown call.  `aborts` comes to two more than there are workers at
most, which an `int` holds for all pools of fewer than `2 ^ 31 - 2` workers. -/
structure Exec where
  deadline : Nat
  aborts : Nat
  canClose : Bool
  deriving DecidableEq

/-- Whom `awp_pthread_join_deadline` is called for; `late` is the call after the grace period of
`awp_worker_join_deadline`, whose outcome is an abort in any case. -/
inductive JoinFor where
  | sup
  | worker (i : Nat) (late : Bool)
  deriving DecidableEq

/-- The call sites of `awp_pool_mark_quarantined`. -/
inductive MarkFor where
  | active
  | sup
  | seen (i : Nat)
  | joinLate (i : Nat)
  | joinFailed (i : Nat)
  | stuck (i : Nat)
  | late
  | final
  deriving DecidableEq

inductive ShutPc where
  | start
  | obsAborts
  | obsQuarantined
  | cas (life : Life)
  -- wait_until_stopped
  | waitLock
  | waitInc
  | waitLife
  | waitBlocked (ticket : Nat)
  | waitRelock
  | waitAborts
  | waitQuarantined
  | waitDec (v : Int)
  | waitBroadcast (v : Int)
  | waitUnlock (v : Int)
  -- the executor: quiescing
  | quiesceLock
  | quiesceBroadcast
  | quiesceUnlock
  | now
  | activeLoop (d : Nat)
  | activeClock (d : Nat)
  | activeTest (d : Nat)
  | timeoutClose (x : Exec) (i : Nat)
  | supStop (x : Exec)
  -- set_life, to `DRAINING` and at the end to `STOPPED`
  | lifeLock (x : Exec) (last : Bool)
  | lifeStore (x : Exec) (last : Bool)
  | lifeBroadcast (x : Exec) (last : Bool)
  | lifeUnlock (x : Exec) (last : Bool)
  -- the supervisor
  | supJoinedLoad (x : Exec)
  | supClock (x : Exec)
  | supPhase (x : Exec)
  | supAlive (x : Exec)
  | supPhase2 (x : Exec)
  | supAlive2 (x : Exec)
  | supSetJoined (x : Exec)
  -- awp_pthread_join_deadline
  | joinClock (x : Exec) (t : JoinFor)
  | joinCreate (x : Exec) (t : JoinFor)
  | joinPoll (x : Exec) (t : JoinFor) (h : Nat)
  | joinPollClock (x : Exec) (t : JoinFor) (h : Nat)
  -- close all, then each worker
  | closeAll (x : Exec) (i : Nat)
  | closeFrames (x : Exec)
  | workerJoined (x : Exec) (i : Nat)
  | workerState (x : Exec) (i : Nat)
  | waitStarting (x : Exec) (i : Nat)
  | waitRunning (x : Exec) (i : Nat)
  | waitClock (x : Exec) (i : Nat)
  | workerState2 (x : Exec) (i : Nat)
  | exitedJoined (x : Exec) (i : Nat) (late : Bool)
  | setJoined (x : Exec) (i : Nat) (late : Bool)
  | setStateJoined (x : Exec) (i : Nat) (late : Bool)
  | setQuarantined (x : Exec) (i : Nat)
  | stopStore (x : Exec) (i : Nat)
  | stopClose (x : Exec) (i : Nat)
  | graceNow (x : Exec) (i : Nat)
  | graceRunning (x : Exec) (i : Nat) (until_ : Nat)
  | graceStarting (x : Exec) (i : Nat) (until_ : Nat)
  | graceClock (x : Exec) (i : Nat) (until_ : Nat)
  | graceDeadline (x : Exec) (i : Nat) (until_ : Nat)
  | graceExited (x : Exec) (i : Nat)
  | stuckStore (x : Exec) (i : Nat)
  | mark (x : Exec) (k : MarkFor)
  | markFrames (x : Exec) (k : MarkFor)
  | noteAbort (x : Exec) (k : MarkFor)
  | drainState (x : Exec) (i : Nat)
  | drainClock (x : Exec) (i : Nat)
  | drainPop (x : Exec) (i : Nat)
  | drainCount (x : Exec) (i p : Nat)
  -- the quarantine path
  | lateClose (x : Exec) (i : Nat)
  | lateRunning (x : Exec) (i : Nat)
  | lateStarting (x : Exec) (i : Nat)
  | lateStore (x : Exec) (i : Nat)
  -- the end
  | anyQuarantined (x : Exec) (i : Nat)
  | anyActive (x : Exec)
  | persistLoad (x : Exec)
  | persistCas (x : Exec)
  | tailAborts (x : Exec)
  | tailQuarantined
  | done (rc : Int)
  deriving DecidableEq

/-- `deadline_ns`. -/
def Config.deadline (c : Config) (t0 : Nat) : Nat :=
  t0 + (if c.shutdownDeadlineMs = 0 then 10000 else c.shutdownDeadlineMs) * 1000000

/-- The test of `can_close`. -/
def Exec.teardown (x : Exec) : ShutPc := if x.canClose then .closeAll x 0 else .lateClose x 0

/-- The head of the loop that joins the workers. -/
def Exec.workerHead (c : Config) (x : Exec) (i : Nat) : ShutPc :=
  if i < c.nWorkers then .workerJoined x i else .anyQuarantined x 0

/-- The head of the loop of the quarantine path. -/
def Exec.lateHead (c : Config) (x : Exec) (i : Nat) : ShutPc :=
  if i < c.nWorkers then .lateClose x i else .mark x .late

/-- Where `awp_pthread_join_deadline` returns 0. -/
def JoinFor.ok (x : Exec) : JoinFor → ShutPc
  | .sup => .supSetJoined x
  | .worker i late => .setJoined x i late

/-- Where it returns 1. -/
def JoinFor.timeout (x : Exec) : JoinFor → ShutPc
  | .sup => .mark x .sup
  | .worker i _ => .mark x (.joinLate i)

/-- Where it returns a negative code. -/
def JoinFor.failed (x : Exec) : JoinFor → ShutPc
  | .sup => .mark x .sup
  | .worker i _ => .mark x (.joinFailed i)

def JoinFor.thread (m : Ctl) : JoinFor → Agent
  | .sup => .sup
  | .worker i _ => m.handle i

/-- What follows `awp_pool_mark_quarantined` at each call site. -/
def MarkFor.after (x : Exec) (k : MarkFor) : ShutPc :=
  match k with
  | .active | .sup | .seen _ | .joinFailed _ | .stuck _ => .noteAbort x k
  | .joinLate i => .setQuarantined x i
  | .late => .anyQuarantined x 0
  | .final => .persistLoad x

/-- What follows `note_abort` at each call site. -/
def MarkFor.noted (x : Exec) : MarkFor → ShutPc
  | .active => .timeoutClose { x with canClose := false } 0
  | .sup => Exec.teardown { x with canClose := false }
  | .seen i | .joinLate i | .joinFailed i | .stuck i => .drainState x i
  | .late | .final => .persistLoad x

/-- `awp_ring_close` on ring `i`. -/
def closeCall (m : Ctl) (l : Loc Nat Nat) (i : Nat) (here after : ShutPc) :
    Option (Ctl × ShutPc × Cmd) :=
  match l with
  | .idle => some (m, here, .call i ringClose)
  | .ret _ => some (m, after, .take)
  | _ => none

/-- `pthread_mutex_lock(&pool->life_mu)`. -/
def Ctl.lockLife (m : Ctl) (me : Agent) : Option Ctl :=
  match m.lifeMu with
  | none => some { m with lifeMu := some me }
  | some _ => none

/-- The next access of `awp_pool_shutdown` outside the ring functions. -/
def ShutPc.next (c : Config) (m : Ctl) (active : Int) (me : Agent) (l : Loc Nat Nat) (x : Choice) :
    ShutPc → Option (Ctl × ShutPc × Cmd)
  | .done _ => none
  | .start =>
    some (m,
      match m.lifecycle with
      | .stopped => .obsAborts
      | .quiescing | .draining => .waitLock
      | .init | .running => .cas m.lifecycle, .stay)
  | .obsAborts =>
    some (m,
      if abortsInt m.shutdownAborts = 0 then .obsQuarantined
      else .done (abortsInt m.shutdownAborts), .stay)
  | .obsQuarantined => some (m, .done (if m.quarantined then 1 else 0), .stay)
  | .cas life =>
    if m.lifecycle = life then
      some ({ m with lifecycle := .quiescing, executor := some me }, .quiesceLock, .stay)
    else some (m, .start, .stay)
  -- wait_until_stopped
  | .waitLock => (m.lockLife me).map (·, .waitInc, .stay)
  | .waitInc => some ({ m with shutdownWaiters := m.shutdownWaiters + 1 }, .waitLife, .stay)
  | .waitLife =>
    if m.lifecycle = .stopped then some (m, .waitAborts, .stay)
    else some ({ m with lifeMu := none }, .waitBlocked m.lifeCv, .stay)
  | .waitBlocked ticket =>
    if ticket < m.lifeCv ∨ x = .alt then some (m, .waitRelock, .stay) else none
  | .waitRelock => (m.lockLife me).map (·, .waitLife, .stay)
  | .waitAborts =>
    some (m,
      if abortsInt m.shutdownAborts = 0 then .waitQuarantined
      else .waitDec (abortsInt m.shutdownAborts), .stay)
  | .waitQuarantined => some (m, .waitDec (if m.quarantined then 1 else 0), .stay)
  | .waitDec v => some ({ m with shutdownWaiters := m.shutdownWaiters - 1 }, .waitBroadcast v, .stay)
  | .waitBroadcast v => some ({ m with lifeCv := m.lifeCv + 1 }, .waitUnlock v, .stay)
  | .waitUnlock v => some ({ m with lifeMu := none }, .done v, .stay)
  -- quiescing
  | .quiesceLock => (m.lockLife me).map (·, .quiesceBroadcast, .stay)
  | .quiesceBroadcast => some ({ m with lifeCv := m.lifeCv + 1 }, .quiesceUnlock, .stay)
  | .quiesceUnlock => some ({ m with lifeMu := none }, .now, .stay)
  | .now => some (m, .activeLoop (c.deadline m.clock), .stay)
  | .activeLoop d => some (m, if 0 < active then .activeClock d else .activeTest d, .stay)
  | .activeClock d => some (m, if m.clock < d then .activeLoop d else .activeTest d, .stay)
  | .activeTest d =>
    some (m, if 0 < active then .mark ⟨d, 0, true⟩ .active else .supStop ⟨d, 0, true⟩, .stay)
  | .timeoutClose e i =>
    if i < c.nWorkers then closeCall m l i (.timeoutClose e i) (.timeoutClose e (i + 1))
    else some (m, .supStop e, .stay)
  | .supStop e => some ({ m with supervisorStop := true }, .lifeLock e false, .stay)
  -- set_life
  | .lifeLock e last => (m.lockLife me).map (·, .lifeStore e last, .stay)
  | .lifeStore e last =>
    some ({ m with lifecycle := if last then .stopped else .draining }, .lifeBroadcast e last, .stay)
  | .lifeBroadcast e last => some ({ m with lifeCv := m.lifeCv + 1 }, .lifeUnlock e last, .stay)
  | .lifeUnlock e last =>
    some ({ m with lifeMu := none }, if last then .tailAborts e else .supJoinedLoad e, .stay)
  -- the supervisor (`supervisor_started` is `enable_supervisor` once create has returned)
  | .supJoinedLoad e =>
    some (m, if c.enableSupervisor ∧ ¬ m.supervisorJoined then .supClock e else e.teardown, .stay)
  | .supClock e => some (m, if m.clock < e.deadline then .supPhase e else .supPhase2 e, .stay)
  | .supPhase e =>
    some (m, if m.supervisorPhase = 3 then .supPhase2 e
      else if m.supervisorPhase = 0 then .supAlive e else .supClock e, .stay)
  | .supAlive e => some (m, if m.supervisorAlive then .supClock e else .supPhase2 e, .stay)
  | .supPhase2 e =>
    some (m, if m.supervisorPhase = 3 then .joinClock e .sup
      else if m.supervisorPhase ≠ 1 ∧ m.supervisorPhase ≠ 2 then .supAlive2 e
      else .mark e .sup, .stay)
  | .supAlive2 e => some (m, if m.supervisorAlive then .mark e .sup else .joinClock e .sup, .stay)
  | .supSetJoined e => some ({ m with supervisorJoined := true }, e.teardown, .stay)
  -- awp_pthread_join_deadline
  | .joinClock e t => some (m, if e.deadline ≤ m.clock then t.timeout e else .joinCreate e t, .stay)
  | .joinCreate e t =>
    match x with
    | .go => some (
        { m with
          helpers := m.helpers + 1
          target := Function.update m.target m.helpers (t.thread m) },
        .joinPoll e t m.helpers, .stay)
    | .rc n => if n < 0 then some (m, t.failed e, .stay) else none
    | _ => none
  | .joinPoll e t h =>
    some (m,
      match m.box h with
      | none => .joinPollClock e t h
      | some rc => if rc = 0 then t.ok e else t.failed e, .stay)
  | .joinPollClock e t h =>
    some (m, if e.deadline ≤ m.clock then t.timeout e else .joinPoll e t h, .stay)
  -- the workers
  | .closeAll e i =>
    if i < c.nWorkers then closeCall m l i (.closeAll e i) (.closeAll e (i + 1))
    else some (m, .closeFrames e, .stay)
  | .closeFrames e => some (m.closeFrames, e.workerHead c 0, .stay)
  | .workerJoined e i =>
    some (m, if (m.w i).joined then .drainState e i else .workerState e i, .stay)
  | .workerState e i =>
    some (m, if (m.w i).state = .quarantined then .mark e (.seen i) else .waitStarting e i, .stay)
  | .waitStarting e i =>
    some (m, if (m.w i).state = .starting then .waitClock e i else .waitRunning e i, .stay)
  | .waitRunning e i =>
    some (m, if (m.w i).state = .running then .waitClock e i else .workerState2 e i, .stay)
  | .waitClock e i =>
    some (m, if e.deadline ≤ m.clock then .workerState2 e i else .waitStarting e i, .stay)
  | .workerState2 e i =>
    some (m, if (m.w i).state = .exited ∨ (m.w i).state = .joined then .exitedJoined e i false
      else .stopStore e i, .stay)
  | .exitedJoined e i late =>
    some (m,
      if (m.w i).joined then (if late then .noteAbort e (.stuck i) else .drainState e i)
      else .joinClock e (.worker i late), .stay)
  | .setJoined e i late =>
    some (m.setW i ({ · with joined := true }), .setStateJoined e i late, .stay)
  | .setStateJoined e i late =>
    some (m.setW i ({ · with state := .joined }),
      if late then .noteAbort e (.stuck i) else .drainState e i, .stay)
  | .setQuarantined e i =>
    some (m.setW i ({ · with state := .quarantined, late := true }),
      .noteAbort e (.joinLate i), .stay)
  | .stopStore e i => some (m.setW i ({ · with stop := true }), .stopClose e i, .stay)
  | .stopClose e i => closeCall m l i (.stopClose e i) (.graceNow e i)
  | .graceNow e i =>
    some (m, .graceRunning e i (min e.deadline (m.clock + 200000000)), .stay)
  | .graceRunning e i u =>
    some (m, if (m.w i).state = .running then .graceClock e i u else .graceStarting e i u, .stay)
  | .graceStarting e i u =>
    some (m, if (m.w i).state = .starting then .graceClock e i u else .graceExited e i, .stay)
  | .graceClock e i u =>
    some (m, if m.clock < u then .graceDeadline e i u else .graceExited e i, .stay)
  | .graceDeadline e i u =>
    some (m, if m.clock < e.deadline then .graceRunning e i u else .graceExited e i, .stay)
  | .graceExited e i =>
    some (m, if (m.w i).state = .exited then .exitedJoined e i true else .stuckStore e i, .stay)
  | .stuckStore e i =>
    some (m.setW i ({ · with state := .quarantined, late := true }), .mark e (.stuck i), .stay)
  | .mark e k => some (m.markQuarantined, .markFrames e k, .stay)
  | .markFrames e k => some (m.closeFrames, k.after e, .stay)
  | .noteAbort e k => some (m.noteAbort, k.noted { e with aborts := e.aborts + 1 }, .stay)
  | .drainState e i =>
    some (m, if (m.w i).state = .quarantined then e.workerHead c (i + 1) else .drainClock e i, .stay)
  | .drainClock e i =>
    some (m, if m.clock < e.deadline then .drainPop e i else e.workerHead c (i + 1), .stay)
  | .drainPop e i =>
    match l with
    | .idle => some (m, .drainPop e i, .call i (ringPop c.ringMode))
    | .ret (.popped p (some _)) => some (m, .drainCount e i p, .take)
    | .ret (.popped _ none) | .ret (.rc _) => some (m, e.workerHead c (i + 1), .take)
    | _ => none
  | .drainCount e i p =>
    some ({ m with abandoned := m.abandoned + 1, drained := m.drained ++ [(i, p)] },
      .drainClock e i, .stay)
  -- the quarantine path
  | .lateClose e i =>
    if i < c.nWorkers then closeCall m l i (.lateClose e i) (.lateRunning e i)
    else some (m, .mark e .late, .stay)
  | .lateRunning e i =>
    some (m, if (m.w i).state = .running then .lateStore e i else .lateStarting e i, .stay)
  | .lateStarting e i =>
    some (m, if (m.w i).state = .starting then .lateStore e i else e.lateHead c (i + 1), .stay)
  | .lateStore e i =>
    some (m.setW i ({ · with state := .quarantined, late := true }), e.lateHead c (i + 1), .stay)
  -- the end
  | .anyQuarantined e i =>
    if i < c.nWorkers then
      some (m, if (m.w i).state = .quarantined then .mark e .final else .anyQuarantined e (i + 1),
        .stay)
    else some (m, .anyActive e, .stay)
  | .anyActive e => some (m, if 0 < active then .mark e .final else .persistLoad e, .stay)
  | .persistLoad e =>
    some (m, if m.quarantined then .persistCas e else .lifeLock e true, .stay)
  | .persistCas e => some (m.persistAbort, .lifeLock e true, .stay)
  | .tailAborts e =>
    some (m,
      if max (abortsInt m.shutdownAborts) e.aborts = 0 then .tailQuarantined
      else .done (max (abortsInt m.shutdownAborts) e.aborts), .stay)
  | .tailQuarantined => some (m, .done (if m.quarantined then 1 else 0), .stay)

end Awp
