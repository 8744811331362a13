import AsyncWorkerPool.Memory.Arena

/-!
# Calloc — `awp_arena_calloc`

The product of the two sizes wraps like every `size_t`.  The contents of memory are a function of
the address, so that the callers may have written anything into their blocks before the call.
-/

open Foundation

namespace Awp

/-- `memset`. -/
def memset (bytes : Nat → UInt8) (ptr : UInt64) (value : UInt8) (n : UInt64) : Nat → UInt8 :=
  fun i ↦ if ptr.toNat ≤ i ∧ i < ptr.toNat + n.toNat then value else bytes i

/-- `awp_arena_calloc`. -/
def Arena.calloc (a : Arena) (bytes : Nat → UInt8) (count size alignment : UInt64)
    (mem₁ mem₂ : Option UInt64) : Arena × (Nat → UInt8) × Option UInt64 :=
  let total := count * size
  match a.alloc total alignment mem₁ mem₂ with
  | (a', none) => (a', bytes, none)
  | (a', some ptr) => (a', memset bytes ptr 0 total, some ptr)

section Memset

variable {bytes : Nat → UInt8} {ptr n : UInt64} {value : UInt8}

theorem memset_at {i : Nat} (h : i < n.toNat) : memset bytes ptr value n (ptr.toNat + i) = value :=
  if_pos ⟨Nat.le_add_right _ _, Nat.add_lt_add_left h _⟩

/-- The frame of `memset`. -/
theorem memset_apart {q m i : Nat} (happart : Apart ptr.toNat n.toNat q m) (h : i < m) :
    memset bytes ptr value n (q + i) = bytes (q + i) := by
  rw [memset, if_neg]
  rintro ⟨hle, hlt⟩
  rcases happart with h' | h'
  · omega
  · omega

end Memset

/-- What a caller of `awp_arena_calloc` relies on: the arena has put a block for `count * size`
bytes, which do not wrap, into its head chunk; they are zero; and the blocks of before are as they
were. -/
structure Zeroed (a a' : Arena) (bytes bytes' : Nat → UInt8) (p count size : UInt64) : Prop where
  reserved : ∃ b, a'.blocks = b :: a.blocks ∧ b.addr = p ∧ count.toNat * size.toNat ≤ b.size.toNat ∧
    ∃ c ∈ a'.chunks.head?, c.Contains b
  zero : ∀ i < count.toNat * size.toNat, bytes' (p.toNat + i) = 0
  kept : ∀ b ∈ a.blocks, ∀ i < b.size.toNat, bytes' (b.addr.toNat + i) = bytes (b.addr.toNat + i)

section Calloc

variable {a a' : Arena} {bytes bytes' : Nat → UInt8} {count size alignment p : UInt64}
  {mem₁ mem₂ : Option UInt64}

theorem Arena.alloc_blocks (h : a.alloc size alignment mem₁ mem₂ = (a', some p)) :
    a'.blocks = ⟨p, size, effective alignment⟩ :: a.blocks := by
  rw [Arena.alloc] at h
  split at h
  · cases h
  split at h
  · cases h
  · split at h
    · split at h
      · cases h
      · cases h
        rfl
    · cases h
      rfl

theorem Arena.calloc_eq (h : a.calloc bytes count size alignment mem₁ mem₂ = (a', bytes', some p)) :
    a.alloc (count * size) alignment mem₁ mem₂ = (a', some p) ∧
      bytes' = memset bytes p 0 (count * size) := by
  rw [Arena.calloc] at h
  rcases halloc : a.alloc (count * size) alignment mem₁ mem₂ with ⟨b, _ | q⟩
  · rw [halloc] at h
    cases h
  · rw [halloc] at h
    cases h
    exact ⟨rfl, rfl⟩

theorem mul_toNat_of_lt (h : count.toNat * size.toNat < 2 ^ 64) :
    (count * size).toNat = count.toNat * size.toNat := by
  rw [UInt64.toNat_mul, Nat.mod_eq_of_lt h]

/-- The product has not wrapped where it is as large as the natural number. -/
theorem lt_of_le_mul_toNat (h : count.toNat * size.toNat ≤ (count * size).toNat) :
    count.toNat * size.toNat < 2 ^ 64 :=
  h.trans_lt (count * size).toNat_lt

/-- **`awp_arena_calloc` zeroes what was asked for, exactly while the product does not wrap.**  In
an arena whose calls have fitted, a call that returns a block has reserved and zeroed all of the
`count * size` bytes and left the other blocks alone if and only if the product is a `size_t` and
the call fits as well. -/
theorem calloc_zeroed_iff {n : UInt64}
    (hrun : Steps Arena.step (fun a op ↦ op.Valid a ∧ op.Fits a) (Arena.init n) a)
    (hvalid : (ArenaOp.alloc (count * size) alignment mem₁ mem₂).Valid a)
    (h : a.calloc bytes count size alignment mem₁ mem₂ = (a', bytes', some p)) :
    Zeroed a a' bytes bytes' p count size ↔ count.toNat * size.toNat < 2 ^ 64 ∧
      (ArenaOp.alloc (count * size) alignment mem₁ mem₂).Fits a := by
  have hgood := Arena.Good.of_run hrun
  obtain ⟨halloc, rfl⟩ := Arena.calloc_eq h
  have hblocks := Arena.alloc_blocks halloc
  have hiff := hgood.alloc_contains_iff hvalid halloc
  constructor
  · rintro ⟨⟨b, hb, -, hle, c, hc, hin⟩, -, -⟩
    obtain rfl := (List.cons.inj (hblocks.symm.trans hb)).1
    exact ⟨lt_of_le_mul_toNat hle, hiff.mp ⟨c, hc, hin⟩⟩
  · rintro ⟨hlt, hfits⟩
    have htotal := mul_toNat_of_lt hlt
    refine ⟨⟨_, hblocks, rfl, htotal.ge, hiff.mpr hfits⟩, fun i hi ↦ memset_at (htotal ▸ hi),
      fun b hb i hi ↦ memset_apart ?_ hi⟩
    -- the new block is apart from the old ones, as in every good arena
    have hgood' : a'.Good := hgood.step hvalid hfits (by rw [Arena.step, halloc])
    have hapart := hgood'.apart
    rw [hblocks] at hapart
    exact (List.pairwise_cons.mp hapart).1 b hb

/-- Ten words of eight bytes, behind a block of 128 bytes in the same chunk. -/
theorem calloc_zeroed_words : ∃ a a' p, ∃ bytes',
    (Arena.init 0).step (.alloc 128 64 (some 65536) none) = some a ∧ a.blocks = [⟨65600, 128, 64⟩] ∧
      a.calloc (fun _ ↦ 255) 10 8 8 none none = (a', bytes', some p) ∧
      Zeroed a a' (fun _ ↦ 255) bytes' p 10 8 := by
  refine ⟨_, _, _, _, rfl, by decide +kernel, rfl, ?_⟩
  have hrun : Steps Arena.step (fun a op ↦ op.Valid a ∧ op.Fits a) (.init 0)
      ((Arena.init 0).alloc 128 64 (some 65536) none).1 :=
    .tail (.refl _) (a := .alloc 128 64 (some 65536) none) (by decide +kernel) rfl
  have hvalid : (ArenaOp.alloc (10 * 8) 8 none none).Valid
      ((Arena.init 0).alloc 128 64 (some 65536) none).1 := by decide +kernel
  exact (calloc_zeroed_iff hrun hvalid rfl).mpr (by decide +kernel)

/-- `2 ^ 62 + 2` words of four bytes are eight bytes, modulo the word. -/
theorem calloc_wraps : ∃ a' p, ∃ bytes',
    (Arena.init 0).calloc (fun _ ↦ 255) 4611686018427387906 4 8 (some 65536) none =
        (a', bytes', some p) ∧
      a'.blocks = [⟨p, 8, 8⟩] ∧ ¬ Zeroed (.init 0) a' (fun _ ↦ 255) bytes' p 4611686018427387906 4 := by
  refine ⟨_, _, _, rfl, by decide +kernel, fun h ↦ ?_⟩
  obtain ⟨b, hb, -, hle, -⟩ := h.reserved
  cases hb
  exact absurd hle (by decide +kernel)

end Calloc

end Awp
