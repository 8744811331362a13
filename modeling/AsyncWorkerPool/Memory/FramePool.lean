import Mathlib.Data.List.Nodup
import AsyncWorkerPool.Foundation.Runs
import AsyncWorkerPool.Foundation.Shares
import AsyncWorkerPool.Ring.Steps

/-!
# FramePool — the frame freelist of `frame_pool.c`

A Treiber stack of slab indices under one tagged head word.  One step of a thread is one access to
shared memory; a `wait` on the condition variable may come back at any time, so that `signal` and
`broadcast` have no effect of their own.  `spin` of a release only picks how to yield and is left
out, as are the bytes of the frames.
-/

open Foundation

namespace Awp

/-- `AWP_POOL_EMPTY`. -/
def poolEmpty : UInt32 := 0xFFFFFFFF

/-- `pack_head` and the two results of `unpack_head`. -/
def packHead (idx tag : UInt32) : UInt64 := (tag.toUInt64 <<< 32) ||| idx.toUInt64

def unpackIdx (h : UInt64) : UInt32 := (h &&& 0xFFFFFFFF).toUInt32

def unpackTag (h : UInt64) : UInt32 := (h >>> 32).toUInt32

/-- `awp_frame_pool_t`. -/
structure FramePool (A : Type) where
  size : UInt32
  head : UInt64
  next : UInt32 → UInt32
  closed : Bool
  waiters : Int
  waitMu : Option A
  /-- History: how often the head has been exchanged. -/
  version : Nat

/-- `awp_frame_pool_init`, on the memory it asks for. -/
def framePoolInit (A : Type) (size : UInt32) : Option (FramePool A) :=
  if size < 1 then none
  else some ⟨size, packHead 0 0, fun i ↦ if i + 1 < size then i + 1 else poolEmpty, false, 0, none, 0⟩

/-- Where a thread is: the local variables that it still needs, and the access it makes next.  `v`
is the version of the head it has loaded. -/
inductive FpLoc where
  | idle
  | acqHead (spin : Nat)
  | acqClosed (spin : Nat)
  | acqInc
  | acqLock
  | acqWaitClosed
  | acqWaitHead
  | acqWait
  | acqRelock
  | acqUnlock
  | acqDec
  | acqNext (spin : Nat) (head : UInt64) (v : Nat)
  | acqCas (spin : Nat) (head : UInt64) (nidx : UInt32) (v : Nat)
  | acquired (frame : Option UInt32)
  | relHead (idx : UInt32)
  | relStore (idx : UInt32) (head : UInt64)
  | relCas (idx : UInt32) (head : UInt64)
  | relWaiters
  | relLock
  | relSignal
  | relUnlock
  /-- A release that was taken for a double release. -/
  | rejected (idx : UInt32)
  | setClosed (closed : Bool)
  | bcLock
  | bcSignal
  | bcUnlock
  deriving DecidableEq

section Step

variable {A : Type} [DecidableEq A]

/-- `pthread_mutex_lock`, when the mutex is free. -/
def FramePool.lock (p : FramePool A) (a : A) (l : FpLoc) : Option (FramePool A × FpLoc) :=
  if p.waitMu = none then some ({ p with waitMu := some a }, l) else none

/-- The compare-exchange of the head; a weak one may fail for no reason. -/
def FramePool.cas (p : FramePool A) (spurious : Bool) (head neu : UInt64) (won lost : FpLoc) :
    FramePool A × FpLoc :=
  if p.head = head ∧ spurious = false then
    ({ p with head := neu, version := p.version + 1 }, won)
  else (p, lost)

/-- One access of thread `a`. -/
def FramePool.step (p : FramePool A) (a : A) (spurious : Bool) :
    FpLoc → Option (FramePool A × FpLoc)
  -- `awp_frame_pool_acquire`
  | .acqHead spin =>
    if unpackIdx p.head = poolEmpty then some (p, .acqClosed spin)
    else some (p, .acqNext spin p.head p.version)
  | .acqClosed spin =>
    if p.closed then some (p, .acquired none)
    else if spin < spinBudget then some (p, .acqHead (spin + 1))
    else some (p, .acqInc)
  | .acqInc => some ({ p with waiters := p.waiters + 1 }, .acqLock)
  | .acqLock => p.lock a .acqWaitClosed
  | .acqWaitClosed => some (p, if p.closed then .acqUnlock else .acqWaitHead)
  | .acqWaitHead => some (p, if unpackIdx p.head ≠ poolEmpty then .acqUnlock else .acqWait)
  | .acqWait => some ({ p with waitMu := none }, .acqRelock)
  | .acqRelock => p.lock a .acqWaitClosed
  | .acqUnlock => some ({ p with waitMu := none }, .acqDec)
  | .acqDec => some ({ p with waiters := p.waiters - 1 }, .acqHead 0)
  | .acqNext spin head v => some (p, .acqCas spin head (p.next (unpackIdx head)) v)
  | .acqCas spin head nidx _ =>
    some (p.cas spurious head (packHead nidx (unpackTag head + 1))
      (.acquired (some (unpackIdx head))) (.acqHead spin))
  -- `awp_frame_pool_release`
  | .relHead idx =>
    some (p, if unpackIdx p.head = idx then .rejected idx else .relStore idx p.head)
  | .relStore idx head =>
    some ({ p with next := Function.update p.next idx (unpackIdx head) }, .relCas idx head)
  | .relCas idx head =>
    some (p.cas spurious head (packHead idx (unpackTag head + 1)) .relWaiters (.relHead idx))
  | .relWaiters => some (p, if p.waiters > 0 then .relLock else .idle)
  | .relLock => p.lock a .relSignal
  | .relSignal => some (p, .relUnlock)
  | .relUnlock => some ({ p with waitMu := none }, .idle)
  | .rejected _ => some (p, .idle)
  -- `awp_frame_pool_close`, `awp_frame_pool_reopen`
  | .setClosed closed => some ({ p with closed := closed }, .bcLock)
  | .bcLock => p.lock a .bcSignal
  | .bcSignal => some (p, .bcUnlock)
  | .bcUnlock => some ({ p with waitMu := none }, .idle)
  | .idle | .acquired _ => none

/-- The pool, the threads inside its functions, and the frames that callers hold. -/
structure FpSys (A : Type) where
  pool : FramePool A
  loc : A → FpLoc
  held : A → List UInt32

/-- What a thread does: it enters a function, takes the result of one, hands a frame it holds to
another thread, or makes its next access. -/
inductive FpMove (A : Type) where
  | acquire (a : A)
  | take (a : A)
  | release (a : A) (idx : UInt32)
  | setClosed (a : A) (closed : Bool)
  | hand (a b : A) (idx : UInt32)
  | access (a : A) (spurious : Bool)
  deriving DecidableEq

/-- The callers of the pool release only what they hold, and then no longer hold it. -/
def FpSys.step (s : FpSys A) : FpMove A → Option (FpSys A)
  | .acquire a =>
    if s.loc a = .idle then some { s with loc := Function.update s.loc a (.acqHead 0) } else none
  | .take a =>
    match s.loc a with
    | .acquired r =>
      some { s with
        loc := Function.update s.loc a .idle
        held := Function.update s.held a (r.toList ++ s.held a) }
    | _ => none
  | .release a idx =>
    if s.loc a = .idle ∧ idx ∈ s.held a then
      some { s with
        -- a pointer outside the slab is not put back
        loc := Function.update s.loc a (if idx < s.pool.size then .relHead idx else .idle)
        held := Function.update s.held a ((s.held a).erase idx) }
    else none
  | .setClosed a closed =>
    if s.loc a = .idle then some { s with loc := Function.update s.loc a (.setClosed closed) }
    else none
  | .hand a b idx =>
    if idx ∈ s.held a ∧ a ≠ b then
      some { s with
        held := Function.update (Function.update s.held a ((s.held a).erase idx)) b
          (idx :: s.held b) }
    else none
  | .access a spurious =>
    (s.pool.step a spurious (s.loc a)).map fun (p, l) ↦
      { s with pool := p, loc := Function.update s.loc a l }

/-- A new pool of this many frames, nobody inside. -/
def FpSys.init (A : Type) (size : UInt32) : Option (FpSys A) :=
  (framePoolInit A size).map (⟨·, fun _ ↦ .idle, fun _ ↦ []⟩)

/-- The version of the head that an acquire expects at its compare-exchange. -/
def FpLoc.expects : FpLoc → Option Nat
  | .acqCas _ _ _ v => some v
  | _ => none

/-- At its compare-exchange, an acquire's tag has not come round since it loaded the head. -/
def FpSys.TagFresh (s : FpSys A) : FpMove A → Prop
  | .access a _ => ∀ v ∈ (s.loc a).expects, s.pool.version < v + 2 ^ 32
  | _ => True

instance (s : FpSys A) : (m : FpMove A) → Decidable (s.TagFresh m)
  | .access a _ =>
    inferInstanceAs (Decidable (∀ v ∈ (s.loc a).expects, s.pool.version < v + 2 ^ 32))
  | .acquire _ | .take _ | .release .. | .setClosed .. | .hand .. => inferInstanceAs (Decidable True)

end Step

/-! ## The freelist -/

/-- The list reached from index `i` through `next`. -/
def Linked (next : UInt32 → UInt32) : UInt32 → List UInt32 → Prop
  | i, [] => i = poolEmpty
  | i, j :: l => i = j ∧ i ≠ poolEmpty ∧ Linked next (next i) l

section Owners

variable {A : Type}

/-- The frame a call in progress has in its hands. -/
def FpLoc.owns : FpLoc → Option UInt32
  | .acquired r => r
  | .relHead idx | .relStore idx _ | .relCas idx _ | .rejected idx => some idx
  | _ => none

/-- What a thread has: the frame of the call in progress, and the frames it holds. -/
def FpSys.owned (s : FpSys A) (a : A) : List UInt32 := (s.loc a).owns.toList ++ s.held a

/-- The freelist `l` and the threads, as the parties that share the frames. -/
def FpSys.shares (s : FpSys A) (l : List UInt32) : Option A → List UInt32
  | none => l
  | some a => s.owned a

/-- The freelist and the threads divide up the frames, and no release has been rejected. -/
def FpSys.Partitioned (s : FpSys A) : Prop :=
  ∃ l, Linked s.pool.next (unpackIdx s.pool.head) l ∧
    Shares (· < s.pool.size) (s.shares l) ∧ ∀ a idx, s.loc a ≠ .rejected idx

end Owners

/-! ## The head word -/

theorem packHead_toNat (idx tag : UInt32) :
    (packHead idx tag).toNat = tag.toNat * 2 ^ 32 + idx.toNat := by
  have hidx := idx.toNat_lt
  have htag := tag.toNat_lt
  have h32 : (32 : UInt64).toNat = 32 := rfl
  rw [packHead, UInt64.toNat_or, UInt64.toNat_shiftLeft, UInt32.toNat_toUInt64,
    UInt32.toNat_toUInt64, h32, Nat.mod_eq_of_lt (by decide : 32 < 64), Nat.shiftLeft_eq,
    Nat.mod_eq_of_lt (by omega), ← Nat.shiftLeft_eq, ← Nat.shiftLeft_add_eq_or_of_lt hidx,
    Nat.shiftLeft_eq]

@[simp] theorem unpackIdx_packHead (idx tag : UInt32) : unpackIdx (packHead idx tag) = idx := by
  have hidx := idx.toNat_lt
  have hmask : (0xFFFFFFFF : UInt64).toNat = 2 ^ 32 - 1 := rfl
  apply UInt32.toNat_inj.mp
  rw [unpackIdx, UInt64.toNat_toUInt32, UInt64.toNat_and, packHead_toNat, hmask,
    Nat.and_two_pow_sub_one_eq_mod]
  omega

@[simp] theorem unpackTag_packHead (idx tag : UInt32) : unpackTag (packHead idx tag) = tag := by
  have hidx := idx.toNat_lt
  have htag := tag.toNat_lt
  have h32 : (32 : UInt64).toNat = 32 := rfl
  apply UInt32.toNat_inj.mp
  rw [unpackTag, UInt64.toNat_toUInt32, UInt64.toNat_shiftRight, packHead_toNat, h32,
    Nat.mod_eq_of_lt (by decide : 32 < 64), Nat.shiftRight_eq_div_pow]
  omega

/-- The tags of two versions less than a full cycle apart differ. -/
theorem version_of_tag {v w : Nat} (h : UInt32.ofNat v = UInt32.ofNat w) (hle : v ≤ w)
    (hlt : w < v + 2 ^ 32) : v = w := by
  have ht := congrArg UInt32.toNat h
  rw [UInt32.toNat_ofNat', UInt32.toNat_ofNat'] at ht
  omega

/-! ## The linked list -/

theorem Linked.update {next : UInt32 → UInt32} {l : List UInt32} {i j v : UInt32}
    (h : Linked next i l) (hj : j ∉ l) : Linked (Function.update next j v) i l := by
  induction l generalizing i with
  | nil => exact h
  | cons k l ih =>
    obtain ⟨rfl, hne, hl⟩ := h
    rw [List.mem_cons, not_or] at hj
    refine ⟨rfl, hne, ?_⟩
    rw [Function.update_of_ne (Ne.symm hj.1)]
    exact ih hl hj.2

theorem Linked.cons_of_ne {next : UInt32 → UInt32} {l : List UInt32} {i : UInt32}
    (h : Linked next i l) (hi : i ≠ poolEmpty) : ∃ r, l = i :: r ∧ Linked next (next i) r := by
  cases l with
  | nil => exact absurd h hi
  | cons j r =>
    obtain ⟨rfl, -, hr⟩ := h
    exact ⟨r, rfl, hr⟩

theorem ne_poolEmpty {i size : UInt32} (h : i < size) : i ≠ poolEmpty := by
  intro he
  have hsize := size.toNat_lt
  have hempty : poolEmpty.toNat = 2 ^ 32 - 1 := rfl
  rw [UInt32.lt_iff_toNat_lt, he, hempty] at h
  omega

/-- The list that `awp_frame_pool_init` builds, from its entry `s` on. -/
theorem linked_init {size : UInt32} {s n : Nat} (h : s + n = size.toNat) :
    Linked (fun i ↦ if i + 1 < size then i + 1 else poolEmpty)
      (if s < size.toNat then UInt32.ofNat s else poolEmpty)
      ((List.range' s n).map UInt32.ofNat) := by
  have hsize := size.toNat_lt
  induction n generalizing s with
  | zero =>
    rw [if_neg (by omega)]
    rfl
  | succ n ih =>
    have hs : (UInt32.ofNat s).toNat = s := by
      rw [UInt32.toNat_ofNat']
      omega
    have hlt : UInt32.ofNat s < size := by
      rw [UInt32.lt_iff_toNat_lt, hs]
      omega
    rw [if_pos (by omega), List.range'_succ, List.map_cons]
    refine ⟨rfl, ne_poolEmpty hlt, ?_⟩
    have hnext : (if UInt32.ofNat s + 1 < size then UInt32.ofNat s + 1 else poolEmpty) =
        if s + 1 < size.toNat then UInt32.ofNat (s + 1) else poolEmpty := by
      have h1 : UInt32.ofNat s + 1 = UInt32.ofNat (s + 1) := (UInt32.ofNat_add s 1).symm
      have ht : (UInt32.ofNat (s + 1)).toNat = s + 1 := by
        rw [UInt32.toNat_ofNat']
        omega
      simp only [h1, UInt32.lt_iff_toNat_lt, ht]
    change Linked _ (if UInt32.ofNat s + 1 < size then UInt32.ofNat s + 1 else poolEmpty) _
    rw [hnext]
    exact ih (by omega)

/-! ## What a step does to the list -/

/-- What a thread that has loaded head `h` at version `v` knows. -/
structure Loaded {A : Type} (p : FramePool A) (h : UInt64) (v : Nat) : Prop where
  le : v ≤ p.version
  same : v = p.version → h = p.head
  idx : unpackIdx h ≠ poolEmpty
  tag : unpackTag h = UInt32.ofNat v

/-- What the local variables of a thread know. -/
def FpLoc.Ok {A : Type} (p : FramePool A) : FpLoc → Prop
  | .acqNext _ h v => Loaded p h v
  | .acqCas _ h nidx v => Loaded p h v ∧ (v = p.version → p.next (unpackIdx h) = nidx)
  | .relCas idx h => p.next idx = unpackIdx h
  | .rejected _ => False
  | _ => True

/-- The list of the pool is as before. -/
structure FramePool.Quiet {A : Type} (p p' : FramePool A) : Prop where
  size : p'.size = p.size
  head : p'.head = p.head
  next : p'.next = p.next
  version : p'.version = p.version

/-- The ways in which an access can affect the list. -/
inductive Effect {A : Type} (p : FramePool A) : FpLoc → FramePool A → FpLoc → Prop where
  | quiet {l p' l'} (hq : p.Quiet p') (ho : l'.owns = l.owns) (hl : l'.Ok p) : Effect p l p' l'
  | link (idx h) : Effect p (.relStore idx h)
      { p with next := Function.update p.next idx (unpackIdx h) } (.relCas idx h)
  | pop (spin nidx v) : Effect p (.acqCas spin p.head nidx v)
      { p with head := packHead nidx (unpackTag p.head + 1), version := p.version + 1 }
      (.acquired (some (unpackIdx p.head)))
  | push (idx) : Effect p (.relCas idx p.head)
      { p with head := packHead idx (unpackTag p.head + 1), version := p.version + 1 } .relWaiters

section Effect

variable {A : Type} {p p' : FramePool A} {a : A} {l l' : FpLoc} {spurious : Bool}

theorem FramePool.Quiet.refl (p : FramePool A) : p.Quiet p := ⟨rfl, rfl, rfl, rfl⟩

theorem FramePool.lock_effect {m : FpLoc} (h : p.lock a m = some (p', l')) (hm : m.owns = l.owns)
    (hok : m.Ok p) : Effect p l p' l' := by
  rw [FramePool.lock] at h
  split at h
  · cases h
    exact .quiet ⟨rfl, rfl, rfl, rfl⟩ hm hok
  · cases h

/-- Every access is one of these; a release whose frame is not on top is not rejected. -/
theorem FramePool.step_effect (h : p.step a spurious l = some (p', l'))
    (htag : unpackTag p.head = UInt32.ofNat p.version) (hl : l.Ok p)
    (hfree : ∀ idx, l.owns = some idx → unpackIdx p.head ≠ idx) : Effect p l p' l' := by
  cases l with
  | idle | acquired => cases h
  | acqHead spin =>
    rw [FramePool.step] at h
    split at h
    · cases h
      exact .quiet (.refl p) rfl trivial
    · rename_i hne
      cases h
      exact .quiet (.refl p) rfl ⟨Nat.le_refl _, fun _ ↦ rfl, hne, htag⟩
  | acqClosed spin =>
    rw [FramePool.step] at h
    split at h
    · cases h
      exact .quiet (.refl p) rfl trivial
    · split at h <;> cases h <;> exact .quiet (.refl p) rfl trivial
  | acqLock => exact FramePool.lock_effect h rfl trivial
  | acqRelock => exact FramePool.lock_effect h rfl trivial
  | relLock => exact FramePool.lock_effect h rfl trivial
  | bcLock => exact FramePool.lock_effect h rfl trivial
  | acqWaitClosed =>
    cases h
    refine .quiet (.refl p) ?_ ?_ <;> split <;> trivial
  | acqWaitHead =>
    cases h
    refine .quiet (.refl p) ?_ ?_ <;> split <;> trivial
  | relWaiters =>
    cases h
    refine .quiet (.refl p) ?_ ?_ <;> split <;> trivial
  | acqNext spin head v =>
    cases h
    exact .quiet (.refl p) rfl ⟨hl, fun _ ↦ rfl⟩
  | acqCas spin head nidx v =>
    simp only [FramePool.step, FramePool.cas, Option.some.injEq] at h
    split at h
    · rename_i hwon
      cases h
      rw [← hwon.1]
      exact .pop spin nidx v
    · cases h
      exact .quiet (.refl p) rfl trivial
  | relHead idx =>
    rw [FramePool.step, if_neg (hfree idx rfl)] at h
    cases h
    exact .quiet (.refl p) rfl trivial
  | relStore idx head =>
    cases h
    exact .link idx head
  | relCas idx head =>
    simp only [FramePool.step, FramePool.cas, Option.some.injEq] at h
    split at h
    · rename_i hwon
      cases h
      rw [← hwon.1]
      exact .push idx
    · cases h
      exact .quiet (.refl p) rfl trivial
  | rejected idx => exact hl.elim
  | _ =>
    cases h
    exact .quiet ⟨rfl, rfl, rfl, rfl⟩ rfl trivial

end Effect

/-! ## The partition is kept -/

/-- The pool is in order, with freelist `l`. -/
structure FpSys.Ok {A : Type} (s : FpSys A) (l : List UInt32) : Prop where
  linked : Linked s.pool.next (unpackIdx s.pool.head) l
  shares : Shares (· < s.pool.size) (s.shares l)
  tag : unpackTag s.pool.head = UInt32.ofNat s.pool.version
  locs : ∀ a, (s.loc a).Ok s.pool

section Kept

variable {A : Type} {s s' : FpSys A} {p p' : FramePool A} {l : List UInt32} {a : A}
  {la l' : FpLoc}

theorem Loaded.of_quiet {h : UInt64} {v : Nat} (hl : Loaded p h v) (hq : p.Quiet p') :
    Loaded p' h v where
  le := hq.version ▸ hl.le
  same hv := hq.head ▸ hl.same (hq.version ▸ hv)
  idx := hl.idx
  tag := hl.tag

theorem FpLoc.Ok.of_quiet (h : la.Ok p) (hq : p.Quiet p') : la.Ok p' := by
  cases la with
  | acqNext spin head v => exact Loaded.of_quiet h hq
  | acqCas spin head nidx v =>
    refine ⟨h.1.of_quiet hq, fun hv ↦ ?_⟩
    rw [hq.next]
    exact h.2 (hq.version ▸ hv)
  | relCas idx head =>
    change p'.next idx = unpackIdx head
    rw [hq.next]
    exact h
  | rejected idx => exact h.elim
  | _ => trivial

/-- Once the head has been exchanged, nothing is known of it any more. -/
theorem Loaded.of_exchange {h neu : UInt64} {v : Nat} (hl : Loaded p h v) :
    Loaded { p with head := neu, version := p.version + 1 } h v where
  le := Nat.le_succ_of_le hl.le
  same hv := absurd hl.le (by rw [hv]; exact Nat.not_succ_le_self _)
  idx := hl.idx
  tag := hl.tag

theorem FpLoc.Ok.of_exchange {neu : UInt64} (h : la.Ok p) :
    la.Ok { p with head := neu, version := p.version + 1 } := by
  cases la with
  | acqNext spin head v => exact Loaded.of_exchange h
  | acqCas spin head nidx v =>
    exact ⟨h.1.of_exchange, fun hv ↦ absurd h.1.le (by rw [hv]; exact Nat.not_succ_le_self _)⟩
  | relCas idx head => exact h
  | rejected idx => exact h.elim
  | _ => trivial

/-- A link out of a frame that is neither on top nor in this thread's hands. -/
theorem FpLoc.Ok.of_link {idx j : UInt32} (h : la.Ok p) (htop : unpackIdx p.head ≠ idx)
    (howns : la.owns ≠ some idx) : la.Ok { p with next := Function.update p.next idx j } := by
  cases la with
  | acqNext spin head v => exact ⟨h.le, h.same, h.idx, h.tag⟩
  | acqCas spin head nidx v =>
    refine ⟨⟨h.1.le, h.1.same, h.1.idx, h.1.tag⟩, fun hv ↦ ?_⟩
    change Function.update p.next idx j (unpackIdx head) = nidx
    rw [h.1.same hv, Function.update_of_ne htop, ← h.1.same hv]
    exact h.2 hv
  | relCas idx' head =>
    change Function.update p.next idx j idx' = unpackIdx head
    rw [Function.update_of_ne fun he ↦ howns (congrArg some he)]
    exact h
  | rejected idx => exact h.elim
  | _ => trivial

theorem FpSys.mem_owned {i : UInt32} (h : (s.loc a).owns = some i) : i ∈ s.owned a := by
  rw [FpSys.owned, h]
  exact List.mem_append_left _ (List.mem_singleton_self i)

/-- What a thread has is not on the freelist. -/
theorem FpSys.Ok.off_list (h : s.Ok l) {i : UInt32} (hi : i ∈ s.owned a) : i ∉ l :=
  h.shares.disjoint (p := some a) (q := none) nofun hi

theorem FpSys.Ok.not_top (h : s.Ok l) {i : UInt32} (hi : i ∈ s.owned a) :
    unpackIdx s.pool.head ≠ i := by
  intro he
  have hne : unpackIdx s.pool.head ≠ poolEmpty :=
    he ▸ ne_poolEmpty (h.shares.inside (p := some a) hi)
  obtain ⟨r, hr, -⟩ := h.linked.cons_of_ne hne
  exact h.off_list hi (by rw [hr, he]; exact List.mem_cons_self)

variable [DecidableEq A]

theorem FpSys.owned_self : FpSys.owned ⟨p', Function.update s.loc a l', s.held⟩ a =
    l'.owns.toList ++ s.held a := by
  simp only [FpSys.owned, Function.update_self]

theorem FpSys.owned_of_ne {b : A} (h : b ≠ a) :
    FpSys.owned ⟨p', Function.update s.loc a l', s.held⟩ b = s.owned b := by
  simp only [FpSys.owned, Function.update_of_ne h]

theorem FpLoc.Ok.update (h : ∀ b, (s.loc b).Ok p') (hl : l'.Ok p') (b : A) :
    (Function.update s.loc a l' b).Ok p' := by
  by_cases hb : b = a
  · rw [hb, Function.update_self]
    exact hl
  · rw [Function.update_of_ne hb]
    exact h b

/-- A step of thread `a` that leaves list and hands alone. -/
theorem FpSys.Ok.quiet (h : s.Ok l) (hq : s.pool.Quiet p') (ho : l'.owns = (s.loc a).owns)
    (hl : l'.Ok s.pool) : FpSys.Ok ⟨p', Function.update s.loc a l', s.held⟩ l where
  linked := by
    change Linked p'.next (unpackIdx p'.head) l
    rw [hq.next, hq.head]
    exact h.linked
  shares := by
    change Shares (· < p'.size) _
    rw [hq.size]
    refine h.shares.perm fun q ↦ List.Perm.of_eq ?_
    cases q with
    | none => rfl
    | some b =>
      by_cases hb : b = a
      · subst hb
        exact (FpSys.owned_self).trans (by rw [ho]; rfl)
      · exact FpSys.owned_of_ne hb
  tag := by
    change unpackTag p'.head = UInt32.ofNat p'.version
    rw [hq.head, hq.version]
    exact h.tag
  locs := FpLoc.Ok.update (fun b ↦ (h.locs b).of_quiet hq) (hl.of_quiet hq)

/-- A release links its frame to the top it has seen. -/
theorem FpSys.Ok.link (h : s.Ok l) {idx : UInt32} {head : UInt64}
    (ha : s.loc a = .relStore idx head) :
    FpSys.Ok ⟨{ s.pool with next := Function.update s.pool.next idx (unpackIdx head) },
      Function.update s.loc a (.relCas idx head), s.held⟩ l := by
  have hown : (s.loc a).owns = some idx := by
    rw [ha]
    rfl
  have hmem := FpSys.mem_owned hown
  refine ⟨h.linked.update (h.off_list hmem), ?_, h.tag, fun b ↦ ?_⟩
  · refine h.shares.perm fun q ↦ List.Perm.of_eq ?_
    cases q with
    | none => rfl
    | some b =>
      by_cases hb : b = a
      · subst hb
        refine (FpSys.owned_self).trans ?_
        simp only [FpSys.shares, FpSys.owned, hown]
        rfl
      · exact FpSys.owned_of_ne hb
  · by_cases hb : b = a
    · subst hb
      simp only [Function.update_self, FpLoc.Ok]
    · simp only [Function.update_of_ne hb]
      refine (h.locs b).of_link (h.not_top hmem) fun hi ↦ hb ?_
      exact Option.some.inj (h.shares.sole (some b) (some a) idx (FpSys.mem_owned hi) hmem)

/-- An acquire takes the top; the tag says that its successor is the one loaded. -/
theorem FpSys.Ok.pop (h : s.Ok l) {spin v : Nat} {nidx : UInt32}
    (ha : s.loc a = .acqCas spin s.pool.head nidx v) (hfresh : s.pool.version < v + 2 ^ 32) :
    ∃ m, FpSys.Ok ⟨{ s.pool with
        head := packHead nidx (unpackTag s.pool.head + 1), version := s.pool.version + 1 },
      Function.update s.loc a (.acquired (some (unpackIdx s.pool.head))), s.held⟩ m := by
  have hloc := h.locs a
  rw [ha] at hloc
  obtain ⟨hload, hnext⟩ := hloc
  have hv : v = s.pool.version := version_of_tag (hload.tag.symm.trans h.tag) hload.le hfresh
  obtain ⟨r, hr, hrest⟩ := h.linked.cons_of_ne hload.idx
  rw [hnext hv] at hrest
  refine ⟨r, ?_, ?_, ?_, FpLoc.Ok.update (fun b ↦ (h.locs b).of_exchange) trivial⟩
  · simp only [unpackIdx_packHead]
    exact hrest
  · refine h.shares.move (p := none) (q := some a) (i := unpackIdx s.pool.head) nofun ?_ ?_ ?_
    · exact List.Perm.of_eq hr
    · refine List.Perm.of_eq ((FpSys.owned_self).trans ?_)
      simp only [FpSys.shares, FpSys.owned, ha]
      rfl
    · intro q hq hqa
      cases q with
      | none => exact absurd rfl hq
      | some b => exact FpSys.owned_of_ne fun hb ↦ hqa (congrArg some hb)
  · simp only [unpackTag_packHead]
    rw [h.tag]
    exact (UInt32.ofNat_add s.pool.version 1).symm

/-- A release puts its frame on top of the list it has linked it to. -/
theorem FpSys.Ok.push (h : s.Ok l) {idx : UInt32} (ha : s.loc a = .relCas idx s.pool.head) :
    FpSys.Ok ⟨{ s.pool with
        head := packHead idx (unpackTag s.pool.head + 1), version := s.pool.version + 1 },
      Function.update s.loc a .relWaiters, s.held⟩ (idx :: l) := by
  have hown : (s.loc a).owns = some idx := by
    rw [ha]
    rfl
  have hmem := FpSys.mem_owned hown
  have hloc := h.locs a
  rw [ha] at hloc
  refine ⟨?_, ?_, ?_, FpLoc.Ok.update (fun b ↦ (h.locs b).of_exchange) trivial⟩
  · simp only [unpackIdx_packHead]
    refine ⟨rfl, ne_poolEmpty (h.shares.inside (p := some a) hmem), ?_⟩
    rw [show s.pool.next idx = _ from hloc]
    exact h.linked
  · refine h.shares.move (p := some a) (q := none) (i := idx) nofun ?_ (List.Perm.refl _) ?_
    · refine List.Perm.of_eq ?_
      simp only [FpSys.shares, FpSys.owned, hown, Function.update_self]
      rfl
    · intro q hqa hq
      cases q with
      | none => exact absurd rfl hq
      | some b => exact FpSys.owned_of_ne fun hb ↦ hqa (congrArg some hb)
  · simp only [unpackTag_packHead]
    rw [h.tag]
    exact (UInt32.ofNat_add s.pool.version 1).symm

end Kept

/-! ## Every run -/

section Run

variable {A : Type} [DecidableEq A] {s s' t : FpSys A} {l : List UInt32}

theorem FpSys.Ok.access (h : s.Ok l) {a : A} {spurious : Bool} {p' : FramePool A} {l' : FpLoc}
    (hs : s.pool.step a spurious (s.loc a) = some (p', l'))
    (hfresh : s.TagFresh (.access a spurious)) :
    ∃ m, FpSys.Ok ⟨p', Function.update s.loc a l', s.held⟩ m := by
  have heffect := FramePool.step_effect hs h.tag (h.locs a) fun i hi ↦ h.not_top (FpSys.mem_owned hi)
  generalize hla : s.loc a = la at heffect
  cases heffect with
  | quiet hq ho hl => exact ⟨l, h.quiet hq (hla ▸ ho) hl⟩
  | link idx head => exact ⟨l, h.link hla⟩
  | pop spin nidx v =>
    exact h.pop hla (hfresh v (by rw [hla]; rfl))
  | push idx => exact ⟨idx :: l, h.push hla⟩

/-- A thread passes from one place to another outside the pool's code, and reorders what it has. -/
theorem FpSys.Ok.client (h : s.Ok l) {a : A} {l' : FpLoc} {held : List UInt32}
    (hp : (l'.owns.toList ++ held).Perm (s.owned a)) (hl : l'.Ok s.pool) :
    FpSys.Ok ⟨s.pool, Function.update s.loc a l', Function.update s.held a held⟩ l := by
  refine ⟨h.linked, h.shares.perm fun q ↦ ?_, h.tag, FpLoc.Ok.update h.locs hl⟩
  cases q with
  | none => exact List.Perm.refl l
  | some b =>
    by_cases hb : b = a
    · subst hb
      simpa only [FpSys.shares, FpSys.owned, Function.update_self] using hp
    · simp only [FpSys.shares, FpSys.owned, Function.update_of_ne hb]
      exact List.Perm.refl _

theorem FpSys.Ok.enter (h : s.Ok l) {a : A} {l' : FpLoc} (ha : s.loc a = .idle)
    (ho : l'.owns = none) (hl : l'.Ok s.pool) :
    FpSys.Ok ⟨s.pool, Function.update s.loc a l', s.held⟩ l :=
  h.quiet (.refl s.pool) (by rw [ho, ha]; rfl) hl

theorem FpSys.Ok.hand (h : s.Ok l) {a b : A} {idx : UInt32} (hidx : idx ∈ s.held a) (hab : a ≠ b) :
    FpSys.Ok ⟨s.pool, s.loc,
      Function.update (Function.update s.held a ((s.held a).erase idx)) b (idx :: s.held b)⟩ l := by
  refine ⟨h.linked, ?_, h.tag, h.locs⟩
  refine h.shares.move (p := some a) (q := some b) (i := idx) (by simpa using hab) ?_ ?_ ?_
  · simp only [FpSys.shares, FpSys.owned, Function.update_of_ne hab, Function.update_self]
    exact ((List.perm_cons_erase hidx).append_left _).trans List.perm_middle
  · simp only [FpSys.shares, FpSys.owned, Function.update_self]
    exact List.perm_middle
  · intro q hqa hqb
    cases q with
    | none => rfl
    | some c =>
      have hca : c ≠ a := fun hc ↦ hqa (congrArg some hc)
      have hcb : c ≠ b := fun hc ↦ hqb (congrArg some hc)
      simp only [FpSys.shares, FpSys.owned, Function.update_of_ne hca, Function.update_of_ne hcb]

/-- **Step lemma.** -/
theorem FpSys.Ok.step (h : s.Ok l) {m : FpMove A} (hfresh : s.TagFresh m)
    (hs : s.step m = some s') : ∃ l', s'.Ok l' := by
  cases m with
  | acquire a =>
    simp only [FpSys.step, Option.ite_none_right_eq_some, Option.some.injEq] at hs
    obtain ⟨ha, rfl⟩ := hs
    exact ⟨l, h.enter ha rfl trivial⟩
  | setClosed a closed =>
    simp only [FpSys.step, Option.ite_none_right_eq_some, Option.some.injEq] at hs
    obtain ⟨ha, rfl⟩ := hs
    exact ⟨l, h.enter ha rfl trivial⟩
  | take a =>
    simp only [FpSys.step] at hs
    split at hs
    · rename_i r ha
      cases hs
      refine ⟨l, h.client ?_ trivial⟩
      rw [FpSys.owned, ha]
      exact List.Perm.refl _
    · cases hs
  | release a idx =>
    simp only [FpSys.step, Option.ite_none_right_eq_some, Option.some.injEq] at hs
    obtain ⟨⟨ha, hidx⟩, rfl⟩ := hs
    have hmem : idx ∈ s.owned a := List.mem_append_right _ hidx
    rw [if_pos (h.shares.inside (p := some a) hmem)]
    refine ⟨l, h.client ?_ trivial⟩
    rw [FpSys.owned, ha]
    exact (List.perm_cons_erase hidx).symm
  | hand a b idx =>
    simp only [FpSys.step, Option.ite_none_right_eq_some, Option.some.injEq] at hs
    obtain ⟨⟨hidx, hab⟩, rfl⟩ := hs
    exact ⟨l, h.hand hidx hab⟩
  | access a spurious =>
    simp only [FpSys.step, Option.map_eq_some_iff, Prod.exists] at hs
    obtain ⟨p', l', hstep, rfl⟩ := hs
    exact h.access hstep hfresh

omit [DecidableEq A] in
/-- A new pool has all its frames on the list. -/
theorem FpSys.Ok.init {size : UInt32} (h : FpSys.init A size = some s) :
    s.Ok ((List.range' 0 size.toNat).map UInt32.ofNat) := by
  rw [FpSys.init, framePoolInit] at h
  split at h
  · cases h
  · rename_i hpos
    cases h
    have hsize := size.toNat_lt
    have hpos : 0 < size.toNat := by
      have h1 : (1 : UInt32).toNat = 1 := rfl
      rw [UInt32.not_lt, UInt32.le_iff_toNat_le, h1] at hpos
      exact hpos
    have hmem : ∀ i, i ∈ (List.range' 0 size.toNat).map UInt32.ofNat ↔ i < size := by
      intro i
      rw [List.mem_map, UInt32.lt_iff_toNat_lt]
      constructor
      · rintro ⟨k, hk, rfl⟩
        rw [List.mem_range'_1] at hk
        rw [UInt32.toNat_ofNat']
        omega
      · intro hi
        exact ⟨i.toNat, List.mem_range'_1.mpr ⟨Nat.zero_le _, by omega⟩, UInt32.ofNat_toNat⟩
    have hlink := linked_init (Nat.zero_add size.toNat)
    rw [if_pos hpos] at hlink
    refine ⟨?_, ⟨fun q ↦ ?_, ?_, fun i ↦ ?_⟩, ?_, fun _ ↦ trivial⟩
    · simp only [unpackIdx_packHead]
      exact hlink
    · cases q with
      | none =>
        refine List.Nodup.map_on (fun x hx y hy hxy ↦ ?_) List.nodup_range'
        rw [List.mem_range'_1] at hx hy
        have ht := congrArg UInt32.toNat hxy
        rw [UInt32.toNat_ofNat', UInt32.toNat_ofNat'] at ht
        omega
      | some b => exact List.nodup_nil
    · intro q r i hq hr
      cases q with
      | none =>
        cases r with
        | none => rfl
        | some c => cases hr
      | some b => cases hq
    · rw [← hmem i]
      refine ⟨fun hi ↦ ⟨none, hi⟩, fun ⟨q, hq⟩ ↦ ?_⟩
      cases q with
      | none => exact hq
      | some b => cases hq
    · simp only [unpackTag_packHead]
      rfl

/-- **Freelist partition.** From the initialization of a pool of any size on, in every interleaving
of acquires, releases, closes and reopens in which no acquire's tag comes round, the list reached
from the head and the frames that the threads have divide up the frames, and no release of a held
frame is taken for a double release. -/
theorem freelist_partition {size : UInt32} (hs : FpSys.init A size = some s)
    (hrun : Steps FpSys.step FpSys.TagFresh s t) : t.Partitioned := by
  have hok : ∃ l, t.Ok l :=
    hrun.invariant (P := fun s ↦ ∃ l, s.Ok l) (fun s m s' ⟨l, h⟩ hm hst ↦ h.step hm hst)
      ⟨_, FpSys.Ok.init hs⟩
  obtain ⟨l, h⟩ := hok
  refine ⟨l, h.linked, h.shares, fun a idx ha ↦ ?_⟩
  have hl := h.locs a
  rw [ha] at hl
  exact hl

end Run

/-- A thread takes the first frame while another one, which has loaded the head before, loses the
exchange and takes the second; then the first frame is released. -/
def churn : List (FpMove Bool) :=
  [.acquire true, .acquire false] ++ [.access false false, .access false false] ++
    List.replicate 3 (.access true false) ++ [.take true] ++ List.replicate 4 (.access false false) ++
    [.take false, .release true 0] ++ List.replicate 4 (.access true false)

theorem freelist_partition_churn :
    ∃ s t : FpSys Bool, FpSys.init Bool 2 = some s ∧
      t.held true = [] ∧ t.held false = [1] ∧ unpackIdx t.pool.head = 0 ∧ t.Partitioned := by
  cases hs : FpSys.init Bool 2 with
  | none => exact absurd hs (by decide)
  | some s =>
    have hrun : ((FpSys.init Bool 2).bind (exec (guarded FpSys.step FpSys.TagFresh) · churn)).any
        (fun t ↦ decide (t.held true = [] ∧ t.held false = [1] ∧ unpackIdx t.pool.head = 0)) =
        true := by decide +kernel
    rw [hs, Option.bind_some] at hrun
    obtain ⟨t, ht, hend⟩ := exec_any hrun
    obtain ⟨htrue, hfalse, htop⟩ := of_decide_eq_true hend
    exact ⟨s, t, rfl, htrue, hfalse, htop, freelist_partition hs (exec_guarded_steps ht)⟩

end Awp
