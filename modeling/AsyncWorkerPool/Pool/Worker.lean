import AsyncWorkerPool.Pool.State

/-!
# Worker — `awp_worker_main`

The thread of one worker, one access per location.  A callback is a stay at `process` or `onError`
until the environment lets it return; the only thing it can do to the pool meanwhile is to call
`awp_pool_destroy`, which then marks quarantine (`Nest`).  The high-water mark is left out, and so
is the release of frames that lie outside the slab: the rings of a pool carry slab frames only.
-/

namespace Awp

/-- `awp_pool_destroy` called from inside a callback. -/
inductive Nest where
  | out
  | markStore | markFrames
  | persistLoad | persistCas
  deriving DecidableEq

inductive WorkerPc where
  | entry
  | stamp
  | loop
  | depth
  | pop
  | taken (p slot : Nat)
  | call (p slot : Nat)
  | process (p slot : Nat) (n : Nest)
  | countError (p slot : Nat) (rc : Int)
  | countPoolError (p slot : Nat) (rc : Int)
  | callError (p slot : Nat) (rc : Int)
  | onError (p slot : Nat) (rc : Int) (n : Nest)
  | count
  | progress
  | exit
  | returned
  deriving DecidableEq

/-- `awp_pool_mark_quarantined`: the flag. -/
def Ctl.markQuarantined (m : Ctl) : Ctl := { m with quarantined := true }

/-- `awp_pool_mark_quarantined`: closing the frame pool. -/
def Ctl.closeFrames (m : Ctl) : Ctl := { m with framesClosed := true }

/-- The compare-exchange of `persist_quarantine_abort`. -/
def Ctl.persistAbort (m : Ctl) : Ctl :=
  { m with shutdownAborts := if m.shutdownAborts = 0 then 1 else m.shutdownAborts }

/-- `atomic_fetch_add(&pool->shutdown_aborts, 1)`. -/
def Ctl.noteAbort (m : Ctl) : Ctl := { m with shutdownAborts := (m.shutdownAborts + 1) % 2 ^ 64 }

/-- The conversion of `shutdown_aborts` to `int`. -/
@[irreducible] def abortsInt (n : Nat) : Int := Int.bmod n (2 ^ 32)

/-- The next access of `awp_pool_destroy` inside a callback. -/
def Nest.next (m : Ctl) : Nest → Ctl × Nest
  | .out => (m, .markStore)
  | .markStore => (m.markQuarantined, .markFrames)
  | .markFrames => (m.closeFrames, .persistLoad)
  | .persistLoad => (m, if m.quarantined then .persistCas else .out)
  | .persistCas => (m.persistAbort, .out)

def Ctl.log (m : Ctl) (i : Nat) (e : Event) : Ctl :=
  m.setW i fun w ↦ { w with events := w.events ++ [e] }

/-- The next access of worker `i`'s thread outside the ring functions. -/
def WorkerPc.next (c : Config) (m : Ctl) (i : Nat) (l : Loc Nat Nat) (x : Choice) :
    WorkerPc → Option (Ctl × WorkerPc × Cmd)
  | .returned => none
  | .entry => some (m.setW i ({ · with state := .running }), .stamp, .stay)
  | .stamp => some (m.setW i ({ · with lastProgress := m.clock }), .loop, .stay)
  | .loop => some (m, if (m.w i).stop then .depth else .pop, .stay)
  | .depth =>
    match l with
    | .idle => some (m, .depth, .call i ringDepth)
    | .ret (.depth n) => some (m, if n = 0 then .exit else .pop, .take)
    | _ => none
  | .pop =>
    match l with
    | .idle => some (m, .pop, .call i (ringPop c.ringMode))
    | .ret (.popped p (some slot)) => some (m, .taken p slot, .take)
    | .ret (.popped _ none) => some (m, .loop, .take)
    | .ret (.rc _) => some (m, .exit, .take)
    | _ => none
  | .taken p slot => some (m.setW i ({ · with lastProgress := m.clock }), .call p slot, .stay)
  | .call p slot => some (m.log i (.started p), .process p slot .out, .stay)
  | .process p slot n =>
    match n, x with
    | .out, .rc n =>
      some (m.log i (.returned p n), if n ≠ 0 then .countError p slot n else .count, .stay)
    | .out, .nested => some (m, .process p slot .markStore, .stay)
    | .out, _ => none
    | n, _ => some ((n.next m).1, .process p slot (n.next m).2, .stay)
  | .countError p slot rc =>
    some (m.setW i (fun w ↦ { w with processErrors := w.processErrors + 1 }),
      .countPoolError p slot rc, .stay)
  | .countPoolError p slot rc =>
    some ({ m with processErrors := m.processErrors + 1 },
      if c.onError then .callError p slot rc else .count, .stay)
  | .callError p slot rc => some (m.log i (.errStarted p rc), .onError p slot rc .out, .stay)
  | .onError p slot rc n =>
    match n, x with
    | .out, .go => some (m.log i (.errReturned p), .count, .stay)
    | .out, .nested => some (m, .onError p slot rc .markStore, .stay)
    | .out, _ => none
    | n, _ => some ((n.next m).1, .onError p slot rc (n.next m).2, .stay)
  | .count => some (m.setW i (fun w ↦ { w with processed := w.processed + 1 }), .progress, .stay)
  | .progress => some (m.setW i ({ · with lastProgress := m.clock }), .loop, .stay)
  | .exit => some (m.setW i ({ · with state := .exited }), .returned, .stay)

end Awp
