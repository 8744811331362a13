import AsyncWorkerPool.Ring.Steps

/-!
# System — any number of threads on one ring with unbounded positions

`RingSys` is a ring and the location of every thread.  A `Move` is one access of one thread, or a
thread entering, leaving or resuming a ring function: the most general client.  The raw ring of
`test_ring_modes.c` and the per-worker queues of the pool are both instances of it.

The single-producer and single-consumer functions are only correct under a discipline that the
mode promises; `Exclusive` states it on the locations: while a thread is inside the span of
`pop_sc` (of `push_sp`) in which it relies on the position it loaded, no other thread is inside
the corresponding span of a pop (of an enqueue).
-/

open Foundation

namespace Awp

@[simp] theorem offset_nat (p n : Nat) : Position.offset p n = p + n := rfl
@[simp] theorem dif_nat (a b : Nat) : Position.dif a b = (a : Int) - (b : Int) := rfl
@[simp] theorem zero_nat : (Position.zero : Nat) = 0 := rfl

theorem depth_nat (cap enq deq : Nat) :
    Position.depth cap enq deq = if enq < deq then 0 else min (enq - deq) cap := rfl

@[simp] theorem slot_nat (cap : Capacity) (p : Nat) : Position.slot cap.val p = p % cap.val :=
  land_mask cap.val_eq p

/-- A ring and the location of every thread. -/
structure RingSys (A F : Type) where
  ring : Ring Nat A F
  loc : A → Loc Nat F

/-- The ring functions a client may enter. -/
inductive Entry (F : Type) : Loc Nat F → Prop where
  | push (mode : RingMode) (f : F) : Entry F (ringPush mode f)
  | tryPush (mode : RingMode) (f : F) : Entry F (ringTryPush mode f)
  | pop (mode : RingMode) : Entry F (ringPop mode)
  | claim : Entry F ringClaim
  | close : Entry F ringClose
  | reopen : Entry F ringReopen
  | waitSpace : Entry F ringWaitSpace
  | depth : Entry F ringDepth

/-- What a client does between ring functions: enter one, take the result of one, commit the slot
it holds. -/
inductive Client {F : Type} : Loc Nat F → Loc Nat F → Prop where
  | enter {l} (h : Entry F l) : Client .idle l
  | leave (r : Ret Nat F) : Client (.ret r) .idle
  | commit (f : F) (pos : Nat) : Client (.held pos) (ringCommit f pos)

section

variable {A F : Type} [DecidableEq A]

/-- One access of thread `a`, or one client action of it. -/
inductive Move (cap : Capacity) (s : RingSys A F) : RingSys A F → Prop where
  | access (a : A) (spurious : Bool) {r' l'}
      (h : s.ring.step cap.val a spurious (s.loc a) = some (r', l')) :
      Move cap s ⟨r', Function.update s.loc a l'⟩
  | client (a : A) {l'} (h : Client (s.loc a) l') :
      Move cap s ⟨s.ring, Function.update s.loc a l'⟩

end

section Spans

variable {F : Type}

/-- Whether the copy of the enqueue code is the single-producer one. -/
def Enq.sp : Enq F → Bool
  | .push sp _ | .tryPush sp _ => sp
  | .claim => false

/-- Inside the span of an enqueue in which a loaded position matters. -/
def Loc.inEnq : Loc Nat F → Bool
  | .enqSeq .. | .enqCas .. | .held _ | .pubData .. | .pubSeq .. | .pubEnq _ => true
  | _ => false

/-- The same, for the single-producer code. -/
def Loc.inEnqSp : Loc Nat F → Bool
  | .enqSeq k _ _ => k.sp
  | .pubData sp _ _ | .pubSeq sp _ _ => sp
  | .pubEnq _ => true
  | _ => false

/-- Inside the span of a pop in which a loaded position matters. -/
def Loc.inPop : Loc Nat F → Bool
  | .popSeq .. | .popTake .. | .popData .. | .popClear .. | .popStore .. | .popClosed ..
  | .popAgain .. => true
  | _ => false

/-- The same, for `pop_sc`. -/
def Loc.inPopSc : Loc Nat F → Bool
  | .popSeq sc _ _ | .popTake sc _ _ | .popData sc _ | .popClear sc _ _ | .popStore sc _ _
  | .popClosed sc _ _ | .popAgain sc _ _ => sc
  | _ => false

/-- The position a thread has reserved and not yet published. -/
def Loc.owns : Loc Nat F → Option Nat
  | .held pos | .pubData _ _ pos | .pubSeq _ _ pos => some pos
  | _ => none

/-- The position `push_sp` has published without having advanced `enqueue_pos`. -/
def Loc.pending : Loc Nat F → Option Nat
  | .pubEnq pos => some pos
  | _ => none

/-- The position a thread has taken and whose cell it has not yet released. -/
def Loc.carries : Loc Nat F → Option Nat
  | .popData _ pos | .popClear _ pos _ | .popStore _ pos _ => some pos
  | _ => none

/-- The discipline of the single-producer and single-consumer functions. -/
structure Exclusive {A : Type} (loc : A → Loc Nat F) : Prop where
  enq : ∀ a b, a ≠ b → (loc a).inEnqSp = true → (loc b).inEnq = false
  pop : ∀ a b, a ≠ b → (loc a).inPopSc = true → (loc b).inPop = false

end Spans

end Awp
