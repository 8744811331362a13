import AsyncWorkerPool.Foundation.Slots

/-!
# Capacity — what `awp_ring_init` accepts

`awp_round_up_pow2` rounds the requested capacity up to a power of two, at least 2 and at most
`AWP_RING_CAP_MAX`; it answers 0 for a request it cannot honour.  A `Capacity` is the resulting
`r->capacity` together with the facts the ring protocol rests on: it is a power of two, so that
masking a position selects its cell, and it is at least 2, so that "published" (`pos + 1`) and
"free for the next lap" (`pos + capacity`) are different sequence numbers.
-/

open Foundation

namespace Awp

/-- `AWP_RING_CAP_MAX`, `1u << 24`. -/
def ringCapMax : UInt32 := (1 : UInt32) <<< (24 : UInt32)

/-- `awp_round_up_pow2`. -/
def roundUpPow2 (v : UInt32) : UInt32 :=
  if v < 2 then 2
  else if v > ringCapMax then 0
  else
    let v := v - 1
    let v := v ||| (v >>> 1)
    let v := v ||| (v >>> 2)
    let v := v ||| (v >>> 4)
    let v := v ||| (v >>> 8)
    let v := v ||| (v >>> 16)
    let v := v + 1
    if v = 0 ∨ v > ringCapMax then 0 else v

/-- The bit smear at the heart of `awp_round_up_pow2`, on the numbers the words stand for. -/
def smear (n : Nat) : Nat :=
  let n := n ||| (n >>> 1)
  let n := n ||| (n >>> 2)
  let n := n ||| (n >>> 4)
  let n := n ||| (n >>> 8)
  n ||| (n >>> 16)

theorem smear_add_one {n : Nat} (hn : n ≠ 0) (hlt : n < 2 ^ 32) :
    smear n + 1 = 2 ^ (n.log2 + 1) := by
  have hk : n.log2 < 32 := (Nat.log2_lt hn).mpr hlt
  exact (filled_log2 hn).smear.smear.smear.smear.smear.eq_two_pow_sub_one hk

theorem roundUpPow2_of_lt {v : UInt32} (h : v < 2) : roundUpPow2 v = 2 := by
  rw [roundUpPow2, if_pos h]

/-- Between 2 and the maximum the result is the power of two above `v - 1`. -/
theorem roundUpPow2_toNat {v : UInt32} (hlo : 2 ≤ v.toNat) (hhi : v.toNat ≤ 2 ^ 24) :
    (roundUpPow2 v).toNat = 2 ^ ((v.toNat - 1).log2 + 1) := by
  have hsub : (v - 1).toNat = v.toNat - 1 := by
    rw [UInt32.toNat_sub_of_le _ _ (UInt32.le_iff_toNat_le.mpr (by simpa using by omega))]
    rfl
  have hlog : (v.toNat - 1).log2 < 24 := (Nat.log2_lt (by omega)).mpr (by omega)
  have hpow : 2 ^ ((v.toNat - 1).log2 + 1) ≤ 2 ^ 24 :=
    Nat.pow_le_pow_right (by decide) (by omega)
  have hsmear := smear_add_one (n := v.toNat - 1) (by omega) (by omega)
  have hmax : ringCapMax.toNat = 2 ^ 24 := by decide
  rw [roundUpPow2, if_neg (by rw [UInt32.lt_iff_toNat_lt]; simpa using by omega),
    if_neg (by rw [gt_iff_lt, UInt32.lt_iff_toNat_lt, hmax]; omega)]
  extract_lets a b c d e f g
  have hg : g.toNat = 2 ^ ((v.toNat - 1).log2 + 1) := by
    have hf : f.toNat = smear (v.toNat - 1) := by
      simp only [f, e, d, c, b, a, smear, UInt32.toNat_or, UInt32.toNat_shiftRight, hsub]
      rfl
    rw [← hsmear, ← hf]
    simp only [g, UInt32.toNat_add]
    rw [hf]
    exact Nat.mod_eq_of_lt (by have h1 : (1 : UInt32).toNat = 1 := rfl; omega)
  have hpos : 0 < 2 ^ ((v.toNat - 1).log2 + 1) := Nat.pow_pos (by decide)
  rw [if_neg]
  · exact hg
  · rw [gt_iff_lt, UInt32.lt_iff_toNat_lt, hg, hmax]
    rintro (h0 | hbig)
    · rw [h0] at hg
      have h1 : (0 : UInt32).toNat = 0 := rfl
      omega
    · omega

/-- The capacity of an initialised ring. -/
structure Capacity where
  val : Nat
  exp : Nat
  val_eq : val = 2 ^ exp
  two_le : 2 ≤ val
  deriving DecidableEq

/-- The least capacity there is. -/
def twoCells : Capacity := ⟨2, 1, rfl, Nat.le_refl 2⟩

theorem Capacity.pos (cap : Capacity) : 0 < cap.val := by
  have h := cap.two_le
  omega

/-- A request that rounds to a nonzero word rounds to a usable capacity. -/
theorem roundUpPow2_capacity {v : UInt32} (h : roundUpPow2 v ≠ 0) :
    ∃ cap : Capacity, cap.val = (roundUpPow2 v).toNat := by
  by_cases hlo : v < 2
  · exact ⟨twoCells, by rw [roundUpPow2_of_lt hlo]; rfl⟩
  · have hlo' : 2 ≤ v.toNat := by
      rw [UInt32.lt_iff_toNat_lt] at hlo
      have htwo : (2 : UInt32).toNat = 2 := rfl
      omega
    have hhi : v.toNat ≤ 2 ^ 24 := by
      by_contra hgt
      apply h
      rw [roundUpPow2, if_neg hlo, if_pos]
      rw [gt_iff_lt, UInt32.lt_iff_toNat_lt]
      have hmax : ringCapMax.toNat = 2 ^ 24 := by decide
      omega
    have he := roundUpPow2_toNat hlo' hhi
    have hpos : 0 < 2 ^ (v.toNat - 1).log2 := Nat.pow_pos (by decide)
    exact ⟨⟨(roundUpPow2 v).toNat, _, he, by rw [he, pow_succ]; omega⟩, rfl⟩

/-- `r->capacity` for an accepted request. -/
def capacityOf (v : UInt32) (h : roundUpPow2 v ≠ 0) : Capacity where
  val := (roundUpPow2 v).toNat
  exp := (roundUpPow2 v).toNat.log2
  val_eq := by
    obtain ⟨cap, hcap⟩ := roundUpPow2_capacity h
    rw [← hcap, cap.val_eq, Nat.log2_two_pow]
  two_le := by
    obtain ⟨cap, hcap⟩ := roundUpPow2_capacity h
    exact hcap ▸ cap.two_le

end Awp
