import AsyncWorkerPool.Ring.Capacity
import AsyncWorkerPool.Foundation.Runs

/-!
# Steps — `awp_ring_t` and its functions, one shared-memory access at a time

A thread inside a ring function stands at a `Loc`: the access it performs next, with the local
variables of the C function that are still live.  `Ring.step` performs that access.  Loads, stores,
compare-exchanges, mutex operations and condition-variable operations of `ring.c` are one step
each, so that an interleaving of steps is an interleaving of the individual atomic operations.

Positions are an abstract `Position` type: unbounded numbers here, machine words where the
wrap-around is the subject.
-/

namespace Awp

/-- `awp_ring_mode_t`. -/
inductive RingMode where
  | spsc | mpsc | spmc | mpmc
  deriving DecidableEq, Repr

/-- The modes that `awp_ring_push` dispatches to `push_sp`. -/
def RingMode.singleProducer : RingMode → Bool
  | .spsc | .spmc => true
  | .mpsc | .mpmc => false

/-- The modes that `awp_ring_pop` dispatches to `pop_sc`. -/
def RingMode.singleConsumer : RingMode → Bool
  | .spsc | .mpsc => true
  | .spmc | .mpmc => false

/-- What `ring.c` computes on positions. -/
class Position (P : Type) where
  zero : P
  /-- `pos + n` -/
  offset : P → Nat → P
  /-- `pos & mask` for the given capacity -/
  slot : Nat → P → Nat
  /-- `(intptr_t)a - (intptr_t)b` -/
  dif : P → P → Int
  /-- the body of `awp_ring_depth` on the two loaded positions -/
  depth : Nat → P → P → Nat

instance : Position Nat where
  zero := 0
  offset := (· + ·)
  slot cap pos := pos &&& (cap - 1)
  dif a b := (a : Int) - (b : Int)
  depth cap enq deq := if enq < deq then 0 else min (enq - deq) cap

/-- `awp_cell_t`; a `NULL` data pointer is `none`. -/
structure Cell (P F : Type) where
  sequence : P
  data : Option F

/-- `awp_ring_t`.  The condition variable is the number of broadcasts made on it: a sleeper that
holds an older number has been signalled.  `pushes` and `pops` are history variables: the frame
published at each position, and the value each pop read there, noted when it releases the cell. -/
structure Ring (P A F : Type) where
  enqueuePos : P
  dequeuePos : P
  cells : Nat → Cell P F
  closed : Bool
  waiters : Int
  waitMu : Option A
  waitCv : Nat
  pushes : List (P × F)
  pops : List (P × Option F)

/-- `AWP_SPIN_BUDGET`. -/
def spinBudget : Nat := 64

def eagain : Int := -11

/-- What a ring function hands back to its caller.  The `void` functions hand back `flag`
(`awp_ring_close` and `awp_ring_reopen`, with the value they stored) and `done`.  `slotFull`,
`slotAhead` and `slotLost` are the three ways in which the slot reservation that `awp_submit` and
`awp_claim_frame` carry inline fails on an open ring: `dif < 0`, `dif > 0`, and a lost
compare-exchange. -/
inductive Ret (P F : Type) where
  | rc (n : Int)
  | flag (closed : Bool)
  | done
  | popped (pos : P) (out : Option F)
  | slotFull
  | slotAhead
  | slotLost
  | depth (d : Nat)
  deriving DecidableEq

/-- The copies of the enqueue loop: `push_sp`/`push_mp`, `try_push_sp`/`try_push_mp` (the flag says
which of the two), and the reservation inlined in `pool.c`. -/
inductive Enq (F : Type) where
  | push (sp : Bool) (frame : F)
  | tryPush (sp : Bool) (frame : F)
  | claim
  deriving DecidableEq

/-- `awp_ring_wake_all`, preceded by the load of `waiters` in `awp_ring_wake_if_needed`. -/
inductive Wake where
  | load | lock | broadcast | unlock
  deriving DecidableEq

/-- The condition a parked thread waits for. -/
inductive WaitFor where
  | space | data
  deriving DecidableEq

/-- `awp_ring_wait_space` and `awp_ring_wait_data`. -/
inductive Wait (P : Type) where
  | inc
  | lock
  | ldClosed
  | ldEnq
  | ldDeq (enq : P)
  | sleep
  | blocked (ticket : Nat)
  | relock
  | unlock
  | dec
  deriving DecidableEq

/-- The loop a parked thread goes back to. -/
inductive Resume (F : Type) where
  | enq (k : Enq F)
  | pop (sc : Bool)
  | caller
  deriving DecidableEq

/-- Where a thread stands inside the ring functions. -/
inductive Loc (P F : Type) where
  | idle
  | enqClosed (k : Enq F) (spin : Nat)
  | enqPos (k : Enq F) (spin : Nat)
  | enqSeq (k : Enq F) (spin : Nat) (pos : P)
  | enqCas (k : Enq F) (spin : Nat) (pos : P)
  | held (pos : P)
  | pubData (sp : Bool) (frame : F) (pos : P)
  | pubSeq (sp : Bool) (frame : F) (pos : P)
  | pubEnq (pos : P)
  | popPos (sc : Bool) (spin : Nat)
  | popSeq (sc : Bool) (spin : Nat) (pos : P)
  | popTake (sc : Bool) (spin : Nat) (pos : P)
  | popData (sc : Bool) (pos : P)
  | popClear (sc : Bool) (pos : P) (out : Option F)
  | popStore (sc : Bool) (pos : P) (out : Option F)
  | popClosed (sc : Bool) (spin : Nat) (pos : P)
  | popAgain (sc : Bool) (spin : Nat) (pos : P)
  | wait (q : WaitFor) (w : Wait P) (k : Resume F)
  | setClosed (v : Bool)
  | depthEnq
  | depthDeq (enq : P)
  | wake (w : Wake) (r : Ret P F)
  | ret (r : Ret P F)
  deriving DecidableEq

section Step

variable {P A F : Type} [Position P] [DecidableEq P]

/-- `&r->cells[pos & r->mask]`. -/
def Ring.cell (r : Ring P A F) (cap : Nat) (pos : P) : Cell P F := r.cells (Position.slot cap pos)

def Ring.setCell (r : Ring P A F) (cap : Nat) (pos : P) (c : Cell P F) : Ring P A F :=
  { r with cells := Function.update r.cells (Position.slot cap pos) c }

/-- `awp_ring_depth` in one look, as its two loads would see it with nothing in between. -/
def Ring.depth (r : Ring P A F) (cap : Nat) : Nat := Position.depth cap r.enqueuePos r.dequeuePos

/-- Whether `awp_ring_wait_space` (`awp_ring_wait_data`) goes on waiting at this depth. -/
def WaitFor.mustWait (cap : Nat) : WaitFor → Nat → Bool
  | .space, depth => decide (cap ≤ depth)
  | .data, depth => depth == 0

/-- Reservation succeeded: `push` and `try_push` go on to write the cell, a claim is handed out. -/
def Enq.reserved (pos : P) : Enq F → Loc P F
  | .push sp f | .tryPush sp f => .pubData sp f pos
  | .claim => .held pos

/-- `dif == 0`: the single-producer copies write the cell at once, the others compete for it. -/
def Enq.ready (spin : Nat) (pos : P) : Enq F → Loc P F
  | .push true f => .pubData true f pos
  | .tryPush true f => .pubData true f pos
  | k => .enqCas k spin pos

/-- `dif < 0`: spin, then park (`push`); give up (`try_push`, claim). -/
def Enq.full (spin : Nat) : Enq F → Loc P F
  | .push sp f =>
    if spin < spinBudget then .enqClosed (.push sp f) (spin + 1)
    else .wait .space .inc (.enq (.push sp f))
  | .tryPush _ _ => .ret (.rc eagain)
  | .claim => .ret .slotFull

/-- `dif > 0`. -/
def Enq.ahead (spin : Nat) : Enq F → Loc P F
  | .push sp f => .enqClosed (.push sp f) spin
  | .tryPush _ _ => .ret (.rc eagain)
  | .claim => .ret .slotAhead

/-- The compare-exchange failed. -/
def Enq.lost (spin : Nat) : Enq F → Loc P F
  | .push sp f => .enqClosed (.push sp f) spin
  | .tryPush _ _ => .ret (.rc eagain)
  | .claim => .ret .slotLost

/-- Back from a wait with the spin counter reset. -/
def Resume.loc : Resume F → Loc P F
  | .enq k => .enqClosed k 0
  | .pop sc => .popPos sc 0
  | .caller => .ret .done

/-- The mutex and condition-variable code of `awp_ring_wake_if_needed` and `awp_ring_wake_all`. -/
def Ring.wakeStep (me : A) (r : Ring P A F) (ret : Ret P F) : Wake → Option (Ring P A F × Loc P F)
  | .load => some (r, if 0 < r.waiters then .wake .lock ret else .ret ret)
  | .lock =>
    match r.waitMu with
    | none => some ({ r with waitMu := some me }, .wake .broadcast ret)
    | some _ => none
  | .broadcast => some ({ r with waitCv := r.waitCv + 1 }, .wake .unlock ret)
  | .unlock => some ({ r with waitMu := none }, .ret ret)

/-- `awp_ring_wait_space` and `awp_ring_wait_data`; `spurious` is a wake-up without a signal. -/
def Ring.waitStep (cap : Nat) (me : A) (spurious : Bool) (r : Ring P A F) (q : WaitFor)
    (k : Resume F) : Wait P → Option (Ring P A F × Loc P F)
  | .inc => some ({ r with waiters := r.waiters + 1 }, .wait q .lock k)
  | .lock =>
    match r.waitMu with
    | none => some ({ r with waitMu := some me }, .wait q .ldClosed k)
    | some _ => none
  | .ldClosed => some (r, if r.closed then .wait q .unlock k else .wait q .ldEnq k)
  | .ldEnq => some (r, .wait q (.ldDeq r.enqueuePos) k)
  | .ldDeq enq =>
    if q.mustWait cap (Position.depth cap enq r.dequeuePos) then some (r, .wait q .sleep k)
    else some (r, .wait q .unlock k)
  | .sleep => some ({ r with waitMu := none }, .wait q (.blocked r.waitCv) k)
  | .blocked ticket =>
    if ticket < r.waitCv ∨ spurious then some (r, .wait q .relock k) else none
  | .relock =>
    match r.waitMu with
    | none => some ({ r with waitMu := some me }, .wait q .ldClosed k)
    | some _ => none
  | .unlock => some ({ r with waitMu := none }, .wait q .dec k)
  | .dec => some ({ r with waiters := r.waiters - 1 }, k.loc)

/-- The next access of a thread standing at the given location; `none` when the thread is outside
the ring functions, or blocked on a mutex or the condition variable.  `spurious` makes a weak
compare-exchange fail, or a sleeper wake up, without a reason. -/
def Ring.step (cap : Nat) (me : A) (spurious : Bool) (r : Ring P A F) :
    Loc P F → Option (Ring P A F × Loc P F)
  | .idle | .held _ | .ret _ => none
  -- push_sp, push_mp, try_push_sp, try_push_mp and the inlined reservation
  | .enqClosed k spin => some (r, if r.closed then .ret (.rc (-1)) else .enqPos k spin)
  | .enqPos k spin => some (r, .enqSeq k spin r.enqueuePos)
  | .enqSeq k spin pos =>
    let dif := Position.dif (r.cell cap pos).sequence pos
    some (r, if dif = 0 then k.ready spin pos else if dif < 0 then k.full spin else k.ahead spin)
  | .enqCas k spin pos =>
    if r.enqueuePos = pos ∧ spurious = false then
      some ({ r with enqueuePos := Position.offset pos 1 }, k.reserved pos)
    else some (r, k.lost spin)
  | .pubData sp frame pos =>
    some (r.setCell cap pos { r.cell cap pos with data := some frame }, .pubSeq sp frame pos)
  | .pubSeq sp frame pos =>
    let r' := r.setCell cap pos { r.cell cap pos with sequence := Position.offset pos 1 }
    some ({ r' with pushes := r.pushes ++ [(pos, frame)] },
      if sp then .pubEnq pos else .wake .load (.rc 0))
  | .pubEnq pos => some ({ r with enqueuePos := Position.offset pos 1 }, .wake .load (.rc 0))
  -- pop_sc, pop_mc
  | .popPos sc spin => some (r, .popSeq sc spin r.dequeuePos)
  | .popSeq sc spin pos =>
    let dif := Position.dif (r.cell cap pos).sequence (Position.offset pos 1)
    some (r, if dif = 0 then .popTake sc spin pos
      else if dif < 0 then .popClosed sc spin pos else .popPos sc spin)
  | .popTake true _ pos =>
    some ({ r with dequeuePos := Position.offset pos 1 }, .popData true pos)
  | .popTake false spin pos =>
    if r.dequeuePos = pos ∧ spurious = false then
      some ({ r with dequeuePos := Position.offset pos 1 }, .popData false pos)
    else some (r, .popPos false spin)
  | .popData sc pos =>
    some (r, .popClear sc pos (r.cell cap pos).data)
  | .popClear sc pos out =>
    some (r.setCell cap pos { r.cell cap pos with data := none }, .popStore sc pos out)
  | .popStore _ pos out =>
    let r' := r.setCell cap pos { r.cell cap pos with sequence := Position.offset pos cap }
    some ({ r' with pops := r.pops ++ [(pos, out)] }, .wake .load (.popped pos out))
  | .popClosed sc spin pos =>
    some (r, if r.closed then .popAgain sc spin pos
      else if spin < spinBudget then .popPos sc (spin + 1) else .wait .data .inc (.pop sc))
  | .popAgain sc spin pos =>
    some (r, if Position.dif (r.cell cap pos).sequence (Position.offset pos 1) = 0
      then .popPos sc spin else .ret (.rc (-1)))
  -- awp_ring_close, awp_ring_reopen, awp_ring_depth
  | .setClosed v => some ({ r with closed := v }, .wake .lock (.flag v))
  | .depthEnq => some (r, .depthDeq r.enqueuePos)
  | .depthDeq enq => some (r, .ret (.depth (Position.depth cap enq r.dequeuePos)))
  | .wait q w k => r.waitStep cap me spurious q k w
  | .wake w ret => r.wakeStep me ret w

/-- The ring that `awp_ring_init` leaves: cell `i` carries sequence `i` and the `i`-th frame. -/
def Ring.init (frames : Nat → F) : Ring P A F where
  enqueuePos := Position.zero
  dequeuePos := Position.zero
  cells i := { sequence := Position.offset Position.zero i, data := some (frames i) }
  closed := false
  waiters := 0
  waitMu := none
  waitCv := 0
  pushes := []
  pops := []

end Step

/-! ## Entry points -/

section Entry

variable {P F : Type}

/-- `awp_ring_push`. -/
def ringPush (mode : RingMode) (frame : F) : Loc P F :=
  .enqClosed (.push mode.singleProducer frame) 0

/-- `awp_ring_try_push`. -/
def ringTryPush (mode : RingMode) (frame : F) : Loc P F :=
  .enqClosed (.tryPush mode.singleProducer frame) 0

/-- `awp_ring_pop`. -/
def ringPop (mode : RingMode) : Loc P F := .popPos mode.singleConsumer 0

/-- The reservation inlined in `awp_submit` and `awp_claim_frame`, from its test of `closed` on. -/
def ringClaim : Loc P F := .enqClosed .claim 0

/-- The publication inlined in `awp_submit` and `awp_commit_frame`: cell data, sequence, wake. -/
def ringCommit (frame : F) (pos : P) : Loc P F := .pubData false frame pos

/-- `awp_ring_close`. -/
def ringClose : Loc P F := .setClosed true

/-- `awp_ring_reopen`. -/
def ringReopen : Loc P F := .setClosed false

/-- `awp_ring_wait_space`, called by `awp_submit` and `awp_submit_keyed`. -/
def ringWaitSpace : Loc P F := .wait .space .inc .caller

/-- `awp_ring_depth`. -/
def ringDepth : Loc P F := .depthEnq

end Entry

end Awp
