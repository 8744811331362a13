import AsyncWorkerPool.Pool.Types

/-!
# State — the memory of the pool

`Ctl` is what shutdown, destroy, the supervisor and the workers agree on; `Dat` is what producers
write.  The split is by writer: admission reads `Ctl` and writes only `Dat`, everybody else the
other way round.  The rings are kept apart from both.

Fields marked *history* are not in the program: they record which threads exist and have been
joined, which callbacks were made, what a frame held when it was published.
-/

namespace Awp

/-- The threads.  A public call is its own party `api n`: a thread that holds several claims, or
makes several calls in turn, is several of them.  `worker i k` is the `k`-th thread created for
worker `i`; `helper k` the `k`-th join helper. -/
inductive Agent where
  | api (n : Nat)
  | worker (i k : Nat)
  | sup
  | helper (k : Nat)
  deriving DecidableEq

/-- Callback boundaries, with the ring position of the frame. -/
inductive Event where
  | started (p : Nat)
  | returned (p : Nat) (rc : Int)
  | errStarted (p : Nat) (rc : Int)
  | errReturned (p : Nat)
  deriving DecidableEq

/-- `awp_worker_t` without its ring and its gauges. -/
structure Worker where
  state : WState
  stop : Bool
  joined : Bool
  lastProgress : Nat
  generation : Nat
  restarts : Nat
  processed : Nat
  processErrors : Nat
  /-- History: threads created so far; `w->thread` is the last of them. -/
  spawned : Nat
  /-- History: the callbacks made for this shard. -/
  events : List Event
  /-- History: shutdown has stored `AWP_W_QUARANTINED` here. -/
  late : Bool

/-- The control part of `awp_pool`. -/
structure Ctl where
  lifecycle : Life
  lifeMu : Option Agent
  /-- Broadcasts made on `life_cv`. -/
  lifeCv : Nat
  shutdownWaiters : Int
  quarantined : Bool
  /-- `frames.closed`: nothing ever waits on the frame pool. -/
  framesClosed : Bool
  shutdownAborts : Nat
  supervisorStop : Bool
  supervisorAlive : Bool
  supervisorPhase : Nat
  supervisorJoined : Bool
  destroyStarted : Bool
  processErrors : Nat
  abandoned : Nat
  w : Nat → Worker
  /-- `CLOCK_MONOTONIC`, in nanoseconds. -/
  clock : Nat
  /-- History: the caller whose compare-exchange published `QUIESCING`. -/
  executor : Option Agent
  /-- History: how often a thread has been joined. -/
  joins : Agent → Nat
  /-- Join helpers created, the thread each is for, and the `rc` in its box once `done`. -/
  helpers : Nat
  target : Nat → Agent
  box : Nat → Option Int
  /-- History: shard and position of the frames counted in `abandoned`. -/
  drained : List (Nat × Nat)
  /-- History: `awp_pool_destroy` has begun to release the storage. -/
  freed : Bool

/-- The part of `awp_pool` that producers write. -/
structure Dat where
  submitted : Nat
  dropped : Nat
  seq : Nat
  activeSubmits : Int
  apiRefs : Int
  /-- `queue.frames` of each worker. -/
  slab : Nat → Nat → Frame
  /-- History: what a frame held when its position was published. -/
  published : Nat → Nat → Option Frame

/-- What a step does about ring functions: nothing, call one on a shard, take the result of one,
or publish the slot that a claim reserved. -/
inductive Cmd where
  | stay
  | call (sh : Nat) (l : Loc Nat Nat)
  | take
  | commit (frame : Nat)

/-- How the environment resolves a step: as usual; with a weak compare-exchange or a wait failing
spuriously; a callback or a system call returning `rc`; a claim holder writing its frame; a
callback calling `awp_pool_destroy`. -/
inductive Choice where
  | go
  | alt
  | rc (n : Int)
  | write (w : FrameWrite)
  | commit
  | nested
  deriving DecidableEq

def Ctl.setW (m : Ctl) (i : Nat) (f : Worker → Worker) : Ctl :=
  { m with w := Function.update m.w i (f (m.w i)) }

@[simp] theorem Ctl.setW_self (m : Ctl) (i : Nat) (f : Worker → Worker) :
    (m.setW i f).w i = f (m.w i) := by simp [Ctl.setW]

theorem Ctl.setW_of_ne (m : Ctl) {i j : Nat} (f : Worker → Worker) (h : j ≠ i) :
    (m.setW i f).w j = m.w j := by simp [Ctl.setW, h]

end Awp
