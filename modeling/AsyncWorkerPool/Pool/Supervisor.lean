import AsyncWorkerPool.Pool.Worker

/-!
# Supervisor — `awp_supervisor_main`, `restart_worker` and `awp_worker_start`

One location per access.  `life_is_running` is two loads, shared by its eight call sites: `Ask`
names the call site, and `Ask.answer` is the branch it takes.  Logging is left out, and with it
the second reading of the depth that only feeds a message.
-/

namespace Awp

/-- The locals of a supervisor round: `now` and `i`. -/
structure Round where
  now : Nat
  i : Nat
  deriving DecidableEq

/-- The call sites of `life_is_running`. -/
inductive Ask where
  | outer
  | worker (r : Round)
  | slice (r : Round)
  | grace (r : Round) (last until_ : Nat)
  | graceDone (r : Round) (last : Nat)
  | restart (r : Round)
  | joined (r : Round)
  | reopened (r : Round)
  deriving DecidableEq

inductive SupPc where
  | phase
  | alive
  | ask (q : Ask)
  | askStop (q : Ask)
  | now
  | sliceClock (r : Round)
  | state (r : Round)
  | progress (r : Round) (st : WState)
  -- stall handling
  | stallDepth (r : Round) (last : Nat)
  | stallStop (r : Round) (last : Nat)
  | graceStart (r : Round) (last : Nat)
  | graceState (r : Round) (last until_ : Nat)
  | graceClock (r : Round) (last until_ : Nat)
  | graceProgress (r : Round) (last until_ : Nat)
  | graceCancel (r : Round) (last : Nat)
  | afterExited (r : Round) (last : Nat)
  | afterRunning (r : Round) (last : Nat)
  | afterStop (r : Round) (last : Nat)
  | afterProgress (r : Round) (last : Nat)
  | healthy (r : Round)
  | quarState (r : Round)
  | quarClose (r : Round)
  | quarMark (r : Round)
  | quarFrames (r : Round)
  | quarAbort (r : Round)
  -- restart_worker
  | joinedLoad (r : Round)
  | join (r : Round)
  | joinFailMark (r : Round)
  | joinFailFrames (r : Round)
  | setJoined (r : Round)
  | setState (r : Round)
  | reclose (r : Round)
  | reopen (r : Round)
  | stampProgress (r : Round)
  | postClose (r : Round)
  -- awp_worker_start
  | startStop (r : Round)
  | startJoined (r : Round)
  | startState (r : Round)
  | startGeneration (r : Round)
  | create (r : Round)
  | createFailState (r : Round)
  | createFailJoined (r : Round)
  | restarted (r : Round)
  | failClose (r : Round)
  | failMark (r : Round)
  | failFrames (r : Round)
  | failAbort (r : Round)
  | failStop (r : Round)
  -- leaving
  | exitPhase
  | exitAlive
  | exitLock
  | exitBroadcast
  | exitUnlock
  | returned
  deriving DecidableEq

/-- The head of the loop over the workers. -/
def Round.head (c : Config) (r : Round) : SupPc :=
  if r.i < c.nWorkers then .ask (.worker r) else .ask (.slice r)

/-- `i++`. -/
def Round.next (c : Config) (r : Round) : SupPc := Round.head c { r with i := r.i + 1 }

/-- What the supervisor does with the answer of `life_is_running`. -/
def Ask.answer (c : Config) (running : Bool) : Ask → SupPc
  | .outer => if running then .now else .exitPhase
  | .worker r => if running then .state r else .ask (.slice r)
  | .slice r => if running then .sliceClock r else .ask .outer
  | .grace r last u => if running then .graceProgress r last u else .ask (.graceDone r last)
  | .graceDone r last => if running then .afterExited r last else .ask (.slice r)
  | .restart r => if running then .joinedLoad r else r.next c
  | .joined r => if running then .reopen r else .reclose r
  | .reopened r => if running then .startStop r else .postClose r

/-- `supervisor_interval_ms` and `stall_threshold_ms` with their defaults, in nanoseconds. -/
def Config.intervalNs (c : Config) : Nat :=
  (if c.supervisorIntervalMs = 0 then 500 else c.supervisorIntervalMs) * 1000000

def Config.stallMs (c : Config) : Nat :=
  if c.stallThresholdMs = 0 then 5000 else c.stallThresholdMs

/-- The branch taken on a worker's state and last progress. -/
def Round.inspect (c : Config) (r : Round) (st : WState) (last : Nat) : SupPc :=
  if st = .quarantined then r.next c
  else if st = .exited ∧ c.enableRestart then .ask (.restart r)
  else if st ≠ .running then r.next c
  else if c.enableRestart ∧ c.stallMs < (r.now - last) / 1000000 then .stallDepth r last
  else r.next c

/-- A ring function called with no result to look at: `awp_ring_close` or `awp_ring_reopen`. -/
def ringCall (m : Ctl) (l : Loc Nat Nat) (i : Nat) (f : Loc Nat Nat) (here after : SupPc) :
    Option (Ctl × SupPc × Cmd) :=
  match l with
  | .idle => some (m, here, .call i f)
  | .ret _ => some (m, after, .take)
  | _ => none

/-- The thread that `w->thread` names. -/
def Ctl.handle (m : Ctl) (i : Nat) : Agent := .worker i ((m.w i).spawned - 1)

/-- `pthread_join` returning 0. -/
def Ctl.join (m : Ctl) (a : Agent) : Ctl :=
  { m with joins := Function.update m.joins a (m.joins a + 1) }

/-- The next access of the supervisor outside the ring functions; `ended` tells which threads have
returned. -/
def SupPc.next (c : Config) (m : Ctl) (ended : Agent → Bool) (l : Loc Nat Nat) (x : Choice) :
    SupPc → Option (Ctl × SupPc × Cmd)
  | .returned => none
  | .phase => some ({ m with supervisorPhase := 2 }, .alive, .stay)
  | .alive => some ({ m with supervisorAlive := true }, .ask .outer, .stay)
  | .ask q =>
    some (m, if m.lifecycle = .running then .askStop q else q.answer c false, .stay)
  | .askStop q => some (m, q.answer c (!m.supervisorStop), .stay)
  | .now => some (m, Round.head c ⟨m.clock, 0⟩, .stay)
  | .sliceClock r =>
    some (m, if m.clock < r.now + c.intervalNs then .ask (.slice r) else .ask .outer, .stay)
  | .state r => some (m, .progress r (m.w r.i).state, .stay)
  | .progress r st => some (m, r.inspect c st (m.w r.i).lastProgress, .stay)
  | .stallDepth r last =>
    match l with
    | .idle => some (m, .stallDepth r last, .call r.i ringDepth)
    | .ret (.depth n) => some (m, if 0 < n then .stallStop r last else r.next c, .take)
    | _ => none
  | .stallStop r last => some (m.setW r.i ({ · with stop := true }), .graceStart r last, .stay)
  | .graceStart r last => some (m, .graceState r last (m.clock + c.stallMs * 1000000), .stay)
  | .graceState r last u =>
    some (m, if (m.w r.i).state = .running then .graceClock r last u
      else .ask (.graceDone r last), .stay)
  | .graceClock r last u =>
    some (m, if m.clock < u then .ask (.grace r last u) else .ask (.graceDone r last), .stay)
  | .graceProgress r last u =>
    some (m, if last < (m.w r.i).lastProgress then .graceCancel r last
      else .graceState r last u, .stay)
  | .graceCancel r last =>
    some (m.setW r.i ({ · with stop := false }), .ask (.graceDone r last), .stay)
  | .afterExited r last =>
    some (m, if (m.w r.i).state = .exited then .ask (.restart r) else .afterRunning r last, .stay)
  | .afterRunning r last =>
    some (m, if (m.w r.i).state = .running then .afterStop r last else .healthy r, .stay)
  | .afterStop r last =>
    some (m, if (m.w r.i).stop then .afterProgress r last else .healthy r, .stay)
  | .afterProgress r last =>
    some (m, if (m.w r.i).lastProgress ≤ last then .quarState r else .healthy r, .stay)
  | .healthy r => some (m.setW r.i ({ · with stop := false }), r.next c, .stay)
  | .quarState r => some (m.setW r.i ({ · with state := .quarantined }), .quarClose r, .stay)
  | .quarClose r => ringCall m l r.i ringClose (.quarClose r) (.quarMark r)
  | .quarMark r => some (m.markQuarantined, .quarFrames r, .stay)
  | .quarFrames r => some (m.closeFrames, .quarAbort r, .stay)
  | .quarAbort r => some (m.noteAbort, r.next c, .stay)
  | .joinedLoad r => some (m, if (m.w r.i).joined then .ask (.joined r) else .join r, .stay)
  | .join r =>
    match x with
    | .go => if ended (m.handle r.i) then some (m.join (m.handle r.i), .setJoined r, .stay) else none
    | .rc n => if n = 0 then none else some (m, .joinFailMark r, .stay)
    | _ => none
  | .joinFailMark r => some (m.markQuarantined, .joinFailFrames r, .stay)
  | .joinFailFrames r => some (m.closeFrames, r.next c, .stay)
  | .setJoined r => some (m.setW r.i ({ · with joined := true }), .setState r, .stay)
  | .setState r => some (m.setW r.i ({ · with state := .joined }), .ask (.joined r), .stay)
  | .reclose r => ringCall m l r.i ringClose (.reclose r) (r.next c)
  | .reopen r => ringCall m l r.i ringReopen (.reopen r) (.stampProgress r)
  | .stampProgress r =>
    some (m.setW r.i ({ · with lastProgress := m.clock }), .ask (.reopened r), .stay)
  | .postClose r => ringCall m l r.i ringClose (.postClose r) (r.next c)
  | .startStop r => some (m.setW r.i ({ · with stop := false }), .startJoined r, .stay)
  | .startJoined r => some (m.setW r.i ({ · with joined := false }), .startState r, .stay)
  | .startState r => some (m.setW r.i ({ · with state := .starting }), .startGeneration r, .stay)
  | .startGeneration r =>
    some (m.setW r.i (fun w ↦ { w with generation := w.generation + 1 }), .create r, .stay)
  | .create r =>
    match x with
    | .go => some (m.setW r.i (fun w ↦ { w with spawned := w.spawned + 1 }), .restarted r, .stay)
    | .rc n => if n = 0 then none else some (m, .createFailState r, .stay)
    | _ => none
  | .createFailState r => some (m.setW r.i ({ · with state := .joined }), .createFailJoined r, .stay)
  | .createFailJoined r => some (m.setW r.i ({ · with joined := true }), .failClose r, .stay)
  | .restarted r => some (m.setW r.i (fun w ↦ { w with restarts := w.restarts + 1 }), r.next c, .stay)
  | .failClose r => ringCall m l r.i ringClose (.failClose r) (.failMark r)
  | .failMark r => some (m.markQuarantined, .failFrames r, .stay)
  | .failFrames r => some (m.closeFrames, .failAbort r, .stay)
  | .failAbort r => some (m.noteAbort, .failStop r, .stay)
  | .failStop r => some ({ m with supervisorStop := true }, r.next c, .stay)
  | .exitPhase => some ({ m with supervisorPhase := 3 }, .exitAlive, .stay)
  | .exitAlive => some ({ m with supervisorAlive := false }, .exitLock, .stay)
  | .exitLock =>
    match m.lifeMu with
    | none => some ({ m with lifeMu := some .sup }, .exitBroadcast, .stay)
    | some _ => none
  | .exitBroadcast => some ({ m with lifeCv := m.lifeCv + 1 }, .exitUnlock, .stay)
  | .exitUnlock => some ({ m with lifeMu := none }, .returned, .stay)

end Awp
