import AsyncWorkerPool.Foundation.Runs
import AsyncWorkerPool.Ring.Capacity

/-!
# Arena — `awp_arena_alloc` and `awp_arena_reset`

Addresses and sizes are 64-bit words, and every sum wraps as in the program.  What `posix_memalign`,
or after it `malloc`, comes back with is part of the label of a step: the first answer is for the
chunk of the default size, the second for the dedicated chunk.
-/

open Foundation

namespace Awp

/-- `struct awp_arena_chunk`, with its address. -/
structure Chunk where
  mem : UInt64
  capacity : UInt64
  offset : UInt64
  deriving DecidableEq

/-- A block that was handed out, as it was asked for. -/
structure Block where
  addr : UInt64
  size : UInt64
  alignment : UInt64
  deriving DecidableEq

/-- `awp_arena_t`; the head comes first. -/
structure Arena where
  chunks : List Chunk
  defaultChunkSize : UInt64
  totalAllocated : UInt64
  /-- History: the blocks handed out since the last reset. -/
  blocks : List Block
  deriving DecidableEq

/-- `awp_arena_init`. -/
def Arena.init (size : UInt64) : Arena := ⟨[], if size = 0 then 2 * 1024 * 1024 else size, 0, []⟩

/-- `sizeof(awp_arena_chunk_t)` and `AWP_CACHELINE`. -/
def chunkHeader : UInt64 := 24
def cacheline : UInt64 := 64

/-- The capacity on which `arena_new_chunk` settles. -/
def chunkCapacity (min : UInt64) : UInt64 :=
  (roundUpPow2 (if min < 64 * 1024 then 64 * 1024 else min).toUInt32).toUInt64

/-- `total_bytes`. -/
def chunkBytes (cap : UInt64) : UInt64 := chunkHeader + cap + cacheline

/-- `arena_new_chunk`, on the memory it gets. -/
def newChunk (min : UInt64) (mem : Option UInt64) : Option Chunk :=
  mem.map fun m ↦ ⟨m, chunkCapacity min, 0⟩

/-- `cur`, `aligned` and `padding`. -/
def Chunk.cur (c : Chunk) : UInt64 := c.mem + chunkHeader + c.offset

def alignUp (cur alignment : UInt64) : UInt64 := (cur + alignment - 1) &&& ~~~(alignment - 1)

def Chunk.padding (c : Chunk) (alignment : UInt64) : UInt64 := alignUp c.cur alignment - c.cur

def effective (alignment : UInt64) : UInt64 := if alignment = 0 then 8 else alignment

def Arena.needed (a : Arena) (size : UInt64) : UInt64 :=
  if size > a.defaultChunkSize then size else a.defaultChunkSize

/-- The head chunk, or a new one when the head does not have room. -/
def Arena.room (a : Arena) (size alignment : UInt64) (mem : Option UInt64) :
    Option (Chunk × List Chunk) :=
  match a.chunks with
  | [] => (newChunk (a.needed size) mem).map (·, [])
  | c :: rest =>
    if c.offset + size + alignment > c.capacity then
      (newChunk (a.needed size) mem).map (·, c :: rest)
    else some (c, rest)

/-- The block does not fit in the chunk after all. -/
def Chunk.lacks (c : Chunk) (size alignment : UInt64) : Bool :=
  c.offset + c.padding alignment + size > c.capacity

/-- The block is taken from chunk `c`. -/
def Arena.take (a : Arena) (c : Chunk) (rest : List Chunk) (size alignment : UInt64) : Arena :=
  { a with
    chunks := { c with offset := c.offset + (c.padding alignment + size) } :: rest
    totalAllocated := a.totalAllocated + (c.padding alignment + size)
    blocks := ⟨alignUp c.cur alignment, size, alignment⟩ :: a.blocks }

/-- `awp_arena_alloc`; the result is the address of the block, if any. -/
def Arena.alloc (a : Arena) (size alignment : UInt64) (mem₁ mem₂ : Option UInt64) :
    Arena × Option UInt64 :=
  if size = 0 then (a, none)
  else
    match a.room size (effective alignment) mem₁ with
    | none => (a, none)
    | some (c, rest) =>
      if c.lacks size (effective alignment) then
        match newChunk size mem₂ with
        | none => ({ a with chunks := c :: rest }, none)
        | some d =>
          (a.take d (c :: rest) size (effective alignment), some (alignUp d.cur (effective alignment)))
      else (a.take c rest size (effective alignment), some (alignUp c.cur (effective alignment)))

/-- `awp_arena_reset`. -/
def Arena.reset (a : Arena) : Arena :=
  { a with chunks := a.chunks.map ({ · with offset := 0 }), totalAllocated := 0, blocks := [] }

inductive ArenaOp where
  | alloc (size alignment : UInt64) (mem₁ mem₂ : Option UInt64)
  | reset
  deriving DecidableEq

def Arena.step (a : Arena) : ArenaOp → Option Arena
  | .alloc size alignment mem₁ mem₂ => some (a.alloc size alignment mem₁ mem₂).1
  | .reset => some a.reset

/-! ## Rounding up to an alignment -/

/-- Masking with `~(alignment - 1)` clears the remainder. -/
theorem and_not_mask {x al : UInt64} {k : Nat} (hk : k < 64) (hal : al.toNat = 2 ^ k) :
    (x &&& ~~~(al - 1)).toNat = x.toNat / 2 ^ k * 2 ^ k := by
  have hpos : 0 < 2 ^ k := Nat.pow_pos (by decide)
  have hmask : (al - 1).toNat = 2 ^ k - 1 := by
    rw [UInt64.toNat_sub_of_le _ _ (by rw [UInt64.le_iff_toNat_le, hal]; exact hpos), hal]
    rfl
  have hlt : 2 ^ k - 1 < 2 ^ 64 := by
    have hle : 2 ^ k ≤ 2 ^ 64 := Nat.pow_le_pow_right (by decide) hk.le
    omega
  have hnot : (~~~(al - 1)).toNat = 2 ^ 64 - (2 ^ k - 1 + 1) := by
    rw [UInt64.toNat_not, hmask]
    have hsize : UInt64.size = 2 ^ 64 := rfl
    omega
  rw [UInt64.toNat_and, hnot, ← Nat.shiftRight_eq_div_pow, ← Nat.shiftLeft_eq]
  refine Nat.eq_of_testBit_eq fun i ↦ ?_
  rw [Nat.testBit_and, Nat.testBit_two_pow_sub_succ hlt, Nat.testBit_two_pow_sub_one,
    Nat.testBit_shiftLeft, Nat.testBit_shiftRight]
  by_cases hi : k ≤ i
  · rw [Nat.add_sub_cancel' hi]
    by_cases hb : i < 64
    · simp [hi, hb, Nat.not_lt.mpr hi]
    · have hx : x.toNat.testBit i = false :=
        Nat.testBit_lt_two_pow (x.toNat_lt.trans_le (Nat.pow_le_pow_right (by decide) (by omega)))
      simp [hx]
  · simp [hi, Nat.lt_of_not_le hi]

/-- The address is a multiple of the alignment, less than one alignment further, counted modulo the
word. -/
theorem alignUp_spec (cur : UInt64) {al : UInt64} {k : Nat} (hk : k < 64) (hal : al.toNat = 2 ^ k) :
    (alignUp cur al).toNat % 2 ^ k = 0 ∧ (alignUp cur al - cur).toNat < 2 ^ k := by
  have hpos : 0 < 2 ^ k := Nat.pow_pos (by decide)
  have hle : 2 ^ k ≤ 2 ^ 63 := Nat.pow_le_pow_right (by decide) (by omega)
  have hcur := cur.toNat_lt
  have hA : (alignUp cur al).toNat = (cur + al - 1).toNat / 2 ^ k * 2 ^ k := and_not_mask hk hal
  have hX : (cur + al - 1).toNat = (cur.toNat + 2 ^ k - 1) % 2 ^ 64 := by
    rw [UInt64.toNat_sub, UInt64.toNat_add, hal]
    have h1 : (1 : UInt64).toNat = 1 := rfl
    omega
  refine ⟨by rw [hA]; exact Nat.mul_mod_left _ _, ?_⟩
  have hdiv := Nat.div_add_mod' (cur + al - 1).toNat (2 ^ k)
  have hmod := Nat.mod_lt (cur + al - 1).toNat hpos
  rw [← hA] at hdiv
  rw [UInt64.toNat_sub]
  by_cases hwrap : cur.toNat + 2 ^ k - 1 < 2 ^ 64
  · rw [Nat.mod_eq_of_lt hwrap] at hX
    omega
  · -- the sum wraps, and the rounded address is 0
    have hzero : (alignUp cur al).toNat = 0 := by
      rw [hA, Nat.div_eq_of_lt (by omega), Nat.zero_mul]
    omega

/-! ## What the memory of the arena holds -/

/-- Two stretches of memory do not overlap. -/
def Apart (p n q m : Nat) : Prop := p + n ≤ q ∨ q + m ≤ p

/-- The memory obtained for a chunk. -/
def Chunk.bytes (c : Chunk) : Nat := (chunkBytes c.capacity).toNat

/-- The block lies in the memory obtained for the chunk, after its header. -/
def Chunk.Contains (c : Chunk) (b : Block) : Prop :=
  c.mem.toNat + chunkHeader.toNat ≤ b.addr.toNat ∧
    b.addr.toNat + b.size.toNat ≤ c.mem.toNat + c.bytes

/-- The blocks handed out since the last reset are aligned, inside the chunks, and apart. -/
structure Arena.Safe (a : Arena) : Prop where
  aligned : ∀ b ∈ a.blocks, b.addr.toNat % b.alignment.toNat = 0
  inside : ∀ b ∈ a.blocks, ∃ c ∈ a.chunks, c.Contains b
  apart : a.blocks.Pairwise fun b b' ↦ Apart b.addr.toNat b.size.toNat b'.addr.toNat b'.size.toNat

/-- Fresh memory for a chunk of at least `min` bytes beside the chunks `cs`. -/
def Fresh (cs : List Chunk) (min : UInt64) (mem : Option UInt64) : Prop :=
  ∀ m ∈ mem, m.toNat + (chunkBytes (chunkCapacity min)).toNat ≤ 2 ^ 64 ∧
    ∀ c ∈ cs, Apart c.mem.toNat c.bytes m.toNat (chunkBytes (chunkCapacity min)).toNat

/-- The caller passes 0 or a power of two, and the memory that comes back is fresh. -/
def ArenaOp.Valid (a : Arena) : ArenaOp → Prop
  | .alloc size alignment mem₁ mem₂ =>
    (∃ k < 64, (effective alignment).toNat = 2 ^ k) ∧ Fresh a.chunks (a.needed size) mem₁ ∧
      ∀ c rest, a.room size (effective alignment) mem₁ = some (c, rest) → Fresh (c :: rest) size mem₂
  | .reset => True

/-- At most `AWP_RING_CAP_MAX` bytes from the chunk itself; from a dedicated one, no more than that
holds behind its padding. -/
def Chunk.Ample (c : Chunk) (size alignment : UInt64) (mem₂ : Option UInt64) : Prop :=
  if c.lacks size alignment then
    ∀ d ∈ newChunk size mem₂, (d.padding alignment).toNat + size.toNat ≤
      (chunkCapacity size).toNat + cacheline.toNat
  else size.toNat ≤ 2 ^ 24

/-- The chunk that a call gets to has enough for the block that it hands out. -/
def ArenaOp.Fits (a : Arena) : ArenaOp → Prop
  | .alloc size alignment mem₁ mem₂ =>
    size ≠ 0 → ∀ x ∈ a.room size (effective alignment) mem₁, x.1.Ample size (effective alignment) mem₂
  | .reset => True

/-- A chunk within its bounds. -/
structure Chunk.Good (c : Chunk) : Prop where
  capacity : c.capacity.toNat ≤ 2 ^ 24
  offset : c.offset.toNat ≤ c.capacity.toNat + cacheline.toNat
  space : c.mem.toNat + c.bytes ≤ 2 ^ 64

/-- The block lies in the part of the chunk that has been handed out. -/
def Chunk.Holds (c : Chunk) (b : Block) : Prop :=
  c.mem.toNat + chunkHeader.toNat ≤ b.addr.toNat ∧
    b.addr.toNat + b.size.toNat ≤ c.mem.toNat + chunkHeader.toNat + c.offset.toNat

structure Arena.Good (a : Arena) : Prop where
  chunks : ∀ c ∈ a.chunks, c.Good
  distinct : a.chunks.Pairwise fun c d ↦ Apart c.mem.toNat c.bytes d.mem.toNat d.bytes
  aligned : ∀ b ∈ a.blocks, b.addr.toNat % b.alignment.toNat = 0
  held : ∀ b ∈ a.blocks, ∃ c ∈ a.chunks, c.Holds b
  apart : a.blocks.Pairwise fun b b' ↦ Apart b.addr.toNat b.size.toNat b'.addr.toNat b'.size.toNat

section Arena

variable {a : Arena} {c d : Chunk} {b : Block} {rest : List Chunk} {size al min : UInt64} {k : Nat}
  {mem mem₁ mem₂ : Option UInt64}

theorem chunkCapacity_le (min : UInt64) : (chunkCapacity min).toNat ≤ 2 ^ 24 := by
  rw [chunkCapacity, UInt32.toNat_toUInt64]
  generalize (if min < 64 * 1024 then 64 * 1024 else min).toUInt32 = v
  have hmax : ringCapMax.toNat = 2 ^ 24 := by decide
  rw [roundUpPow2]
  split
  · decide
  · split
    · decide
    · extract_lets v₁ v₂ v₃ v₄ v₅ v₆ v₇
      split
      · decide
      · rename_i h
        rw [not_or, gt_iff_lt, UInt32.not_lt, UInt32.le_iff_toNat_le, hmax] at h
        exact h.2

theorem chunkBytes_toNat {cap : UInt64} (h : cap.toNat ≤ 2 ^ 24) :
    (chunkBytes cap).toNat = cap.toNat + 88 := by
  rw [chunkBytes, UInt64.toNat_add, UInt64.toNat_add]
  have h₁ : chunkHeader.toNat = 24 := rfl
  have h₂ : cacheline.toNat = 64 := rfl
  omega

theorem Arena.Good.safe (h : a.Good) : a.Safe := by
  refine ⟨h.aligned, fun b hb ↦ ?_, h.apart⟩
  obtain ⟨c, hc, hheld⟩ := h.held b hb
  have hgood := h.chunks c hc
  refine ⟨c, hc, hheld.1, ?_⟩
  have hbytes := chunkBytes_toNat hgood.capacity
  have hoff := hgood.offset
  have h₁ : chunkHeader.toNat = 24 := rfl
  have h₂ : cacheline.toNat = 64 := rfl
  have hend := hheld.2
  rw [Chunk.bytes]
  omega

theorem newChunk_good (hfresh : Fresh rest min mem) (hnew : newChunk min mem = some d) :
    d.Good ∧ d.offset = 0 ∧ d.capacity = chunkCapacity min ∧
      ∀ c ∈ rest, Apart c.mem.toNat c.bytes d.mem.toNat d.bytes := by
  obtain ⟨m, rfl, rfl⟩ := Option.map_eq_some_iff.mp hnew
  obtain ⟨hspace, happart⟩ := hfresh m rfl
  exact ⟨⟨chunkCapacity_le min, Nat.zero_le _, hspace⟩, rfl, rfl, happart⟩

/-- Another chunk at the head, with nothing in it. -/
theorem Arena.Good.push (h : a.Good) (hfresh : Fresh a.chunks min mem)
    (hnew : newChunk min mem = some d) : ({ a with chunks := d :: a.chunks } : Arena).Good := by
  obtain ⟨hgood, -, -, happart⟩ := newChunk_good hfresh hnew
  refine ⟨?_, ?_, h.aligned, fun b hb ↦ ?_, h.apart⟩
  · rintro c (_ | ⟨_, hc⟩)
    · exact hgood
    · exact h.chunks c hc
  · exact List.pairwise_cons.mpr ⟨fun c hc ↦ (happart c hc).symm, h.distinct⟩
  · obtain ⟨c, hc, hheld⟩ := h.held b hb
    exact ⟨c, List.mem_cons_of_mem _ hc, hheld⟩

/-- The chunk that `awp_arena_alloc` looks at is the head of a good arena. -/
theorem Arena.Good.room (h : a.Good) (hfresh : Fresh a.chunks (a.needed size) mem)
    (hroom : a.room size al mem = some (c, rest)) : ({ a with chunks := c :: rest } : Arena).Good := by
  rw [Arena.room] at hroom
  cases hchunks : a.chunks with
  | nil =>
    rw [hchunks] at hroom
    obtain ⟨d, hnew, he⟩ := Option.map_eq_some_iff.mp hroom
    cases he
    exact hchunks ▸ h.push hfresh hnew
  | cons c' rest' =>
    rw [hchunks] at hroom
    dsimp only at hroom
    split at hroom
    · obtain ⟨d, hnew, he⟩ := Option.map_eq_some_iff.mp hroom
      cases he
      exact hchunks ▸ h.push hfresh hnew
    · cases hroom
      exact hchunks ▸ h

/-- Where a block that ends within the memory of its chunk comes to lie. -/
theorem Chunk.Good.aligned_toNat (h : c.Good)
    (hfit : c.offset.toNat + (c.padding al).toNat + size.toNat ≤ c.capacity.toNat + cacheline.toNat)
    (hpos : 0 < size.toNat) :
    (alignUp c.cur al).toNat = c.mem.toNat + chunkHeader.toNat + c.offset.toNat + (c.padding al).toNat := by
  have hbytes := chunkBytes_toNat h.capacity
  have hcap := h.capacity
  have hspace := h.space
  rw [Chunk.bytes] at hspace
  have h₁ : chunkHeader.toNat = 24 := rfl
  have h₂ : cacheline.toNat = 64 := rfl
  have hcur : c.cur.toNat = c.mem.toNat + chunkHeader.toNat + c.offset.toNat := by
    rw [Chunk.cur, UInt64.toNat_add, UInt64.toNat_add]
    omega
  have hpad : (alignUp c.cur al).toNat = (c.cur.toNat + (c.padding al).toNat) % 2 ^ 64 := by
    rw [← UInt64.toNat_add, Chunk.padding, UInt64.add_comm, UInt64.sub_add_cancel]
  omega

theorem Arena.Good.take (h : ({ a with chunks := c :: rest } : Arena).Good) (hk : k < 64)
    (hal : al.toNat = 2 ^ k)
    (hfit : c.offset.toNat + (c.padding al).toNat + size.toNat ≤ c.capacity.toNat + cacheline.toNat)
    (hpos : 0 < size.toNat) : (a.take c rest size al).Good := by
  have hc := h.chunks c List.mem_cons_self
  have haddr := hc.aligned_toNat hfit hpos
  have h₁ : chunkHeader.toNat = 24 := rfl
  have h₂ : cacheline.toNat = 64 := rfl
  have hcap := hc.capacity
  have hspace := hc.space
  have hbytes := chunkBytes_toNat hcap
  have hoff : (c.offset + (c.padding al + size)).toNat =
      c.offset.toNat + (c.padding al).toNat + size.toNat := by
    rw [UInt64.toNat_add, UInt64.toNat_add]
    omega
  have hdist := List.pairwise_cons.mp h.distinct
  refine ⟨?_, List.pairwise_cons.mpr hdist, ?_, ?_, List.pairwise_cons.mpr ⟨fun b hb ↦ ?_, h.apart⟩⟩
  · rintro d (_ | ⟨_, hd⟩)
    · exact ⟨hcap, hoff.trans_le hfit, hspace⟩
    · exact h.chunks d (List.mem_cons_of_mem _ hd)
  · rintro b (_ | ⟨_, hb⟩)
    · rw [hal]
      exact (alignUp_spec _ hk hal).1
    · exact h.aligned b hb
  · rintro b (_ | ⟨_, hb⟩)
    · refine ⟨_, List.mem_cons_self, ?_, ?_⟩
      · simp only [haddr]
        omega
      · simp only [haddr, hoff]
        omega
    · obtain ⟨d, hd, hheld⟩ := h.held b hb
      rcases List.mem_cons.mp hd with rfl | hd
      · refine ⟨_, List.mem_cons_self, hheld.1, hheld.2.trans ?_⟩
        simp only [hoff]
        omega
      · exact ⟨d, List.mem_cons_of_mem _ hd, hheld⟩
  · -- a block of the same chunk ends before, and that of another chunk lies in other memory
    obtain ⟨d, hd, hheld⟩ := h.held b hb
    simp only [Apart, haddr]
    rcases List.mem_cons.mp hd with rfl | hd
    · have hend := hheld.2
      omega
    · have hd' := h.chunks d (List.mem_cons_of_mem _ hd)
      have hdbytes := chunkBytes_toNat hd'.capacity
      have hdoff := hd'.offset
      have hstart := hheld.1
      have hend := hheld.2
      have happart := hdist.1 d hd
      simp only [Apart, Chunk.bytes] at happart hspace
      omega

theorem Chunk.Good.fits_of_not_lacks (h : c.Good) (hk : k < 64) (hal : al.toNat = 2 ^ k)
    (hsize : size.toNat ≤ 2 ^ 24) (hno : c.lacks size al = false) :
    c.offset.toNat + (c.padding al).toNat + size.toNat ≤ c.capacity.toNat := by
  have hpad : (c.padding al).toNat < 2 ^ k := (alignUp_spec _ hk hal).2
  have hle : 2 ^ k ≤ 2 ^ 63 := Nat.pow_le_pow_right (by decide) (by omega)
  have hoff := h.offset
  have hcap := h.capacity
  have h₂ : cacheline.toNat = 64 := rfl
  rw [Chunk.lacks, decide_eq_false_iff_not, gt_iff_lt, UInt64.not_lt, UInt64.le_iff_toNat_le,
    UInt64.toNat_add, UInt64.toNat_add] at hno
  omega

/-- A step of a valid call that fits keeps the arena good. -/
theorem Arena.Good.step {a' : Arena} {op : ArenaOp} (h : a.Good) (hvalid : op.Valid a)
    (hfits : op.Fits a) (hst : a.step op = some a') : a'.Good := by
  cases op with
  | reset =>
    cases hst
    refine ⟨fun c hc ↦ ?_, ?_, nofun, nofun, .nil⟩
    · obtain ⟨d, hd, rfl⟩ := List.mem_map.mp hc
      have hgood := h.chunks d hd
      exact ⟨hgood.capacity, Nat.zero_le _, hgood.space⟩
    · exact List.pairwise_map.mpr h.distinct
  | alloc size alignment mem₁ mem₂ =>
    obtain ⟨⟨k, hk, hal⟩, hfresh₁, hfresh₂⟩ := hvalid
    cases hst
    rw [Arena.alloc]
    split
    · exact h
    rename_i hne
    have hpos : 0 < size.toNat := by
      by_contra hz
      exact hne (UInt64.toNat.inj (by simpa using hz))
    cases hroom : a.room size (effective alignment) mem₁ with
    | none => exact h
    | some x =>
      obtain ⟨c, rest⟩ := x
      have hr := h.room hfresh₁ hroom
      have hc := hr.chunks c List.mem_cons_self
      have hample := hfits hne _ hroom
      cases hlacks : c.lacks size (effective alignment) with
      | false =>
        rw [Chunk.Ample, hlacks, if_neg Bool.false_ne_true] at hample
        simp only [hlacks, Bool.false_eq_true, if_false]
        refine hr.take hk hal ?_ hpos
        have hfit := hc.fits_of_not_lacks hk hal hample hlacks
        omega
      | true =>
        rw [Chunk.Ample, hlacks, if_pos rfl] at hample
        simp only [hlacks, if_true]
        cases hnew : newChunk size mem₂ with
        | none => exact hr
        | some d =>
          obtain ⟨-, hoff, hcap, -⟩ := newChunk_good (hfresh₂ c rest hroom) hnew
          refine (hr.push (hfresh₂ c rest hroom) hnew).take hk hal ?_ hpos
          rw [hoff, hcap, UInt64.toNat_zero, Nat.zero_add]
          exact hample d hnew

end Arena

/-! ## The condition is exact -/

section Exact

variable {a : Arena} {c d : Chunk} {rest : List Chunk} {size al alignment : UInt64} {k : Nat}
  {mem₁ mem₂ : Option UInt64}

/-- A block lies in its chunk when it ends there before any sum wraps. -/
theorem Chunk.Good.contains_iff (h : c.Good) (alignment : UInt64) (hk : k < 64)
    (hal : al.toNat = 2 ^ k) (hpos : 0 < size.toNat) (offset : UInt64) :
    ({ c with offset := offset } : Chunk).Contains ⟨alignUp c.cur al, size, alignment⟩ ↔
      c.offset.toNat + (c.padding al).toNat + size.toNat ≤ c.capacity.toNat + cacheline.toNat := by
  have hbytes := chunkBytes_toNat h.capacity
  have hspace := h.space
  have hoff := h.offset
  have hcap := h.capacity
  have h₁ : chunkHeader.toNat = 24 := rfl
  have h₂ : cacheline.toNat = 64 := rfl
  simp only [Chunk.Contains, Chunk.bytes] at hspace ⊢
  constructor
  · rintro ⟨hstart, hend⟩
    have hcur : c.cur.toNat = (c.mem.toNat + chunkHeader.toNat + c.offset.toNat) % 2 ^ 64 := by
      rw [Chunk.cur, UInt64.toNat_add, UInt64.toNat_add, Nat.mod_add_mod]
    have hpad : (alignUp c.cur al).toNat = (c.cur.toNat + (c.padding al).toNat) % 2 ^ 64 := by
      rw [← UInt64.toNat_add, Chunk.padding, UInt64.add_comm, UInt64.sub_add_cancel]
    obtain ⟨hmod, hlt⟩ := alignUp_spec c.cur hk hal
    rw [← Chunk.padding] at hlt
    have hle : 2 ^ k ≤ 2 ^ 63 := Nat.pow_le_pow_right (by decide) (by omega)
    by_cases hwrap : c.mem.toNat + chunkHeader.toNat + c.offset.toNat + (c.padding al).toNat < 2 ^ 64
    · omega
    · -- the address has wrapped: it is below the alignment, hence 0
      have hsmall : (alignUp c.cur al).toNat < 2 ^ k := by omega
      rw [Nat.mod_eq_of_lt hsmall] at hmod
      omega
  · intro hfit
    have haddr := h.aligned_toNat hfit hpos
    omega

/-- In a good arena a block lies in the chunk that it is taken from if and only if the call fits. -/
theorem Arena.Good.alloc_contains_iff {a' : Arena} {p : UInt64} (h : a.Good)
    (hvalid : (ArenaOp.alloc size alignment mem₁ mem₂).Valid a)
    (halloc : a.alloc size alignment mem₁ mem₂ = (a', some p)) :
    (∃ c ∈ a'.chunks.head?, c.Contains ⟨p, size, alignment⟩) ↔
      (ArenaOp.alloc size alignment mem₁ mem₂).Fits a := by
  obtain ⟨⟨k, hk, hal⟩, hfresh₁, hfresh₂⟩ := hvalid
  rw [Arena.alloc] at halloc
  split at halloc
  · cases halloc
  rename_i hne
  have hpos : 0 < size.toNat := by
    by_contra hz
    exact hne (UInt64.toNat.inj (by simpa using hz))
  have h₂ : cacheline.toNat = 64 := rfl
  cases hroom : a.room size (effective alignment) mem₁ with
  | none =>
    rw [hroom] at halloc
    cases halloc
  | some x =>
    obtain ⟨c, rest⟩ := x
    have hr := h.room hfresh₁ hroom
    have hc := hr.chunks c List.mem_cons_self
    have hfits : (ArenaOp.alloc size alignment mem₁ mem₂).Fits a ↔
        c.Ample size (effective alignment) mem₂ := by
      simp [ArenaOp.Fits, hne, hroom]
    rw [hroom] at halloc
    dsimp only at halloc
    rw [hfits, Chunk.Ample]
    cases hlacks : c.lacks size (effective alignment) with
    | false =>
      rw [hlacks, if_neg Bool.false_ne_true] at halloc
      cases halloc
      simp only [Arena.take, List.head?_cons, Option.mem_some_iff, exists_eq_left',
        hc.contains_iff _ hk hal hpos _, Bool.false_eq_true, if_false]
      constructor
      · intro hfit
        have hle := hlacks
        have hcap := hc.capacity
        rw [Chunk.lacks, decide_eq_false_iff_not, gt_iff_lt, UInt64.not_lt,
          UInt64.le_iff_toNat_le, UInt64.toNat_add, UInt64.toNat_add] at hle
        omega
      · intro hsize
        have hend := hc.fits_of_not_lacks hk hal hsize hlacks
        omega
    | true =>
      rw [hlacks, if_pos rfl] at halloc
      cases hnew : newChunk size mem₂ with
      | none =>
        rw [hnew] at halloc
        cases halloc
      | some d =>
        rw [hnew] at halloc
        cases halloc
        obtain ⟨hd, hoff, hcap, -⟩ := newChunk_good (hfresh₂ c rest hroom) hnew
        have hiff := hd.contains_iff alignment hk hal hpos
          (d.offset + (d.padding (effective alignment) + size))
        rw [hoff, hcap, UInt64.toNat_zero, Nat.zero_add] at hiff
        simp only [Arena.take, List.head?_cons, Option.mem_some_iff, exists_eq_left', hoff, hcap]
        rw [hiff]
        simp

/-- An arena whose calls have all been valid and fitted is good. -/
theorem Arena.Good.of_run {n : UInt64}
    (hrun : Steps Arena.step (fun a op ↦ op.Valid a ∧ op.Fits a) (Arena.init n) a) : a.Good :=
  hrun.invariant (P := Arena.Good) (fun _ _ _ h hok hst ↦ h.step hok.1 hok.2 hst)
    ⟨nofun, .nil, nofun, nofun, .nil⟩

/-- **Blocks are safe while the calls fit.**  As long as every block that is handed out has at most
`AWP_RING_CAP_MAX` bytes, or, in a dedicated chunk, no more than that holds behind its padding, the
blocks handed out since the last reset are aligned, inside the memory of a chunk, and apart from each
other; and the first call that does not fit gets a block that leaves its chunk. -/
theorem arena_blocks_safe {n : UInt64}
    (hrun : Steps Arena.step (fun a op ↦ op.Valid a ∧ op.Fits a) (Arena.init n) a) :
    a.Safe ∧ ∀ size alignment mem₁ mem₂ a' p, (ArenaOp.alloc size alignment mem₁ mem₂).Valid a →
      a.alloc size alignment mem₁ mem₂ = (a', some p) →
      ((∃ c ∈ a'.chunks.head?, c.Contains ⟨p, size, alignment⟩) ↔
        (ArenaOp.alloc size alignment mem₁ mem₂).Fits a) := by
  have hgood := Arena.Good.of_run hrun
  exact ⟨hgood.safe, fun _ _ _ _ _ _ hvalid halloc ↦ hgood.alloc_contains_iff hvalid halloc⟩

instance (p n q m : Nat) : Decidable (Apart p n q m) := inferInstanceAs (Decidable (_ ∨ _))

-- not by running through all words
instance (cs : List Chunk) (min : UInt64) (mem : Option UInt64) : Decidable (Fresh cs min mem) :=
  Option.decidableForallMem mem

instance (a : Arena) (op : ArenaOp) : Decidable (op.Valid a) := by
  cases op with
  | reset => exact isTrue trivial
  | alloc size alignment mem₁ mem₂ =>
    have hrest : (∀ x ∈ a.room size (effective alignment) mem₁, Fresh (x.1 :: x.2) size mem₂) ↔
        ∀ c rest, a.room size (effective alignment) mem₁ = some (c, rest) →
          Fresh (c :: rest) size mem₂ := Prod.forall
    exact decidable_of_iff ((∃ k < 64, (effective alignment).toNat = 2 ^ k) ∧
      Fresh a.chunks (a.needed size) mem₁ ∧ _) (and_congr_right' (and_congr_right' hrest))

instance (a : Arena) (op : ArenaOp) : Decidable (op.Fits a) := by
  cases op with
  | reset => exact isTrue trivial
  | alloc size alignment mem₁ mem₂ =>
    unfold ArenaOp.Fits Chunk.Ample
    infer_instance

/-- Two blocks of one chunk, a block in a dedicated chunk, and one in a chunk of its own. -/
def fourBlocks : List ArenaOp :=
  [.alloc 128 64 (some 65536) none, .alloc 100 8 none none,
    .alloc 65530 64 (some 262144) (some 393216), .alloc 16 16 (some 524288) none]

/-- They are safe, and so are two more after a reset. -/
theorem arena_blocks_safe_reset : ∃ a a' : Arena,
    (a.blocks.map Block.addr = [524320, 393280, 65728, 65600] ∧ a.Safe) ∧
    a'.blocks.map Block.addr = [524520, 524320] ∧ a'.chunks.length = 4 ∧ a'.Safe := by
  have hrun : (exec (guarded Arena.step fun a op ↦ op.Valid a ∧ op.Fits a) (.init 65536)
      fourBlocks).any (fun a ↦
        decide (a.blocks.map Block.addr = [524320, 393280, 65728, 65600]) &&
        (exec (guarded Arena.step fun a op ↦ op.Valid a ∧ op.Fits a) a
          [.reset, .alloc 200 32 none none, .alloc 64 0 none none]).any fun a' ↦
            decide (a'.blocks.map Block.addr = [524520, 524320] ∧ a'.chunks.length = 4)) = true := by
    decide +kernel
  obtain ⟨a, ha, hP⟩ := exec_any hrun
  rw [Bool.and_eq_true] at hP
  obtain ⟨a', ha', hQ⟩ := exec_any hP.2
  obtain ⟨haddr, hlength⟩ := of_decide_eq_true hQ
  have hsteps := exec_guarded_steps ha
  exact ⟨a, a', ⟨of_decide_eq_true hP.1, (arena_blocks_safe hsteps).1⟩, haddr, hlength,
    (arena_blocks_safe (hsteps.trans (exec_guarded_steps ha'))).1⟩

/-- One byte more than the maximal capacity: the dedicated chunk has no capacity at all. -/
theorem arena_block_overruns : ∃ op a', op.Valid (.init 0) ∧ (Arena.init 0).step op = some a' ∧
    ¬ a'.Safe := by
  refine ⟨.alloc 16777217 8 (some 65536) (some 4194304), _, ⟨⟨3, by decide, by decide⟩, ?_, ?_⟩, rfl, ?_⟩
  · rintro m ⟨⟩
    exact ⟨by decide +kernel, nofun⟩
  · intro c rest hroom
    have hc : (Arena.init 0).room 16777217 (effective 8) (some 65536) =
        some (⟨65536, 0, 0⟩, []) := by decide +kernel
    cases hc.symm.trans hroom
    rintro m ⟨⟩
    refine ⟨by decide +kernel, fun c hc ↦ ?_⟩
    rw [List.mem_singleton.mp hc]
    exact Or.inl (by decide +kernel)
  · intro h
    obtain ⟨c, hc, hstart, hend⟩ := h.inside ⟨4194328, 16777217, 8⟩ (by decide +kernel)
    have hchunks : ((Arena.init 0).alloc 16777217 8 (some 65536) (some 4194304)).1.chunks =
        [⟨4194304, 0, 16777217⟩, ⟨65536, 0, 0⟩] := by decide +kernel
    rw [hchunks] at hc
    rcases List.mem_cons.mp hc with rfl | hc
    · exact absurd hend (by decide +kernel)
    · rw [List.mem_singleton.mp hc] at hend
      exact absurd hend (by decide +kernel)

end Exact

end Awp
