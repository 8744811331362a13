import AsyncWorkerPool.Pool.Shutdown

/-!
# Destroy — `awp_pool_destroy`

Called from outside a callback; the call from inside one is part of `Worker`.  The release of the
storage is one step, `release`: everything before it decides whether to take it.
-/

namespace Awp

inductive DestroyPc where
  | cas
  | lifeLoad
  | shut (p : ShutPc)
  | lock
  | waiters
  | blocked (ticket : Nat)
  | relock
  | unlock
  | refs (spins : Nat)
  | refsMark
  | refsFrames
  | ckQuarantined
  | ckWorker (i : Nat)
  | ckActive
  | ckRefs
  | ckSup
  | joined (i : Nat)
  | state (i : Nat)
  | leakMark
  | leakFrames
  | release
  | released
  | leaked
  | refused
  deriving DecidableEq

/-- The next access of `awp_pool_destroy` outside the ring functions. -/
def DestroyPc.next (c : Config) (m : Ctl) (d : Dat) (me : Agent) (l : Loc Nat Nat) (x : Choice) :
    DestroyPc → Option (Ctl × DestroyPc × Cmd)
  | .released | .leaked | .refused => none
  | .cas =>
    if m.destroyStarted then some (m, .refused, .stay)
    else some ({ m with destroyStarted := true }, .lifeLoad, .stay)
  | .lifeLoad => some (m, if m.lifecycle = .stopped then .lock else .shut .start, .stay)
  | .shut (.done _) => some (m, .lock, .stay)
  | .shut p =>
    (p.next c m d.activeSubmits me l x).map fun (m', p', k) ↦ (m', .shut p', k)
  | .lock => (m.lockLife me).map (·, .waiters, .stay)
  | .waiters =>
    if 0 < m.shutdownWaiters then some ({ m with lifeMu := none }, .blocked m.lifeCv, .stay)
    else some (m, .unlock, .stay)
  | .blocked ticket => if ticket < m.lifeCv ∨ x = .alt then some (m, .relock, .stay) else none
  | .relock => (m.lockLife me).map (·, .waiters, .stay)
  | .unlock => some ({ m with lifeMu := none }, .refs 0, .stay)
  | .refs spins =>
    some (m,
      if 0 < d.apiRefs then (if 5000 < spins + 1 then .refsMark else .refs (spins + 1))
      else .ckQuarantined, .stay)
  | .refsMark => some (m.markQuarantined, .refsFrames, .stay)
  | .refsFrames => some (m.closeFrames, .ckQuarantined, .stay)
  | .ckQuarantined => some (m, if m.quarantined then .leaked else .ckWorker 0, .stay)
  | .ckWorker i =>
    if i < c.nWorkers then
      some (m, if (m.w i).state = .quarantined then .leaked else .ckWorker (i + 1), .stay)
    else some (m, .ckActive, .stay)
  | .ckActive => some (m, if 0 < d.activeSubmits then .leaked else .ckRefs, .stay)
  | .ckRefs => some (m, if 0 < d.apiRefs then .leaked else .ckSup, .stay)
  | .ckSup =>
    some (m, if c.enableSupervisor ∧ ¬ m.supervisorJoined then .leaked else .joined 0, .stay)
  | .joined i =>
    if i < c.nWorkers then
      some (m, if (m.w i).joined then .joined (i + 1) else .state i, .stay)
    else some (m, .release, .stay)
  | .state i =>
    some (m, if (m.w i).state = .quarantined then .joined (i + 1) else .leakMark, .stay)
  | .leakMark => some (m.markQuarantined, .leakFrames, .stay)
  | .leakFrames => some (m.closeFrames, .leaked, .stay)
  | .release => some ({ m with freed := true }, .released, .stay)

end Awp
