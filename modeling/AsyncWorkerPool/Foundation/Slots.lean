import Mathlib.Data.Nat.Bitwise
import Mathlib.Data.Nat.Log

/-!
# Slots — positions that share a cell of a cyclic buffer

Positions grow without bound and the cell of a position is its remainder modulo the capacity.
Two positions of one cell are equal or at least a whole lap apart; with a power-of-two capacity
the remainder is a bit mask, and rounding up to a power of two is the usual bit smear.
-/

namespace Foundation

/-- Positions of one cell less than a lap apart are equal. -/
theorem mod_window {c p q : Nat} (h : p % c = q % c) (hp : p < q + c) (hq : q < p + c) :
    p = q := by
  rcases Nat.le_total p q with hle | hle
  · have hd : c ∣ q - p := Nat.dvd_of_mod_eq_zero (Nat.sub_mod_eq_zero_of_mod_eq h.symm)
    have hz := Nat.eq_zero_of_dvd_of_lt hd (by omega)
    omega
  · have hd : c ∣ p - q := Nat.dvd_of_mod_eq_zero (Nat.sub_mod_eq_zero_of_mod_eq h)
    have hz := Nat.eq_zero_of_dvd_of_lt hd (by omega)
    omega

/-- Distinct positions of one cell are at least a lap apart. -/
theorem mod_lap {c p q : Nat} (h : p % c = q % c) (hlt : p < q) : p + c ≤ q := by
  by_contra hn
  have he := mod_window h (by omega) (by omega)
  omega

/-- With a power-of-two capacity the cell of a position is obtained by masking. -/
theorem land_mask {c k : Nat} (hc : c = 2 ^ k) (p : Nat) : p &&& (c - 1) = p % c := by
  rw [hc, Nat.and_two_pow_sub_one_eq_mod]

/-- The `m` bits of `x` below and including bit `k` are set, and no higher one. -/
def Filled (m k x : Nat) : Prop :=
  x < 2 ^ (k + 1) ∧ ∀ j, j ≤ k → k < j + m → x.testBit j = true

theorem filled_log2 {x : Nat} (hx : x ≠ 0) : Filled 1 x.log2 x := by
  refine ⟨Nat.lt_log2_self, fun j hj hk ↦ ?_⟩
  have he : j = x.log2 := by omega
  rw [he]
  exact Nat.testBit_log2 hx

/-- One smear step `x | x >> m` doubles the run of set bits. -/
theorem Filled.smear {m k x : Nat} (h : Filled m k x) : Filled (m + m) k (x ||| x >>> m) := by
  obtain ⟨hlt, hbits⟩ := h
  refine ⟨Nat.or_lt_two_pow hlt ((Nat.shiftRight_le x m).trans_lt hlt), fun j hj hk ↦ ?_⟩
  rw [Nat.testBit_or, Nat.testBit_shiftRight, Bool.or_eq_true]
  by_cases hnear : k < j + m
  · exact Or.inl (hbits j hj hnear)
  · exact Or.inr (hbits (m + j) (by omega) (by omega))

theorem Filled.eq_two_pow_sub_one {m k x : Nat} (h : Filled m k x) (hk : k < m) :
    x + 1 = 2 ^ (k + 1) := by
  obtain ⟨hlt, hbits⟩ := h
  have he : x = 2 ^ (k + 1) - 1 := by
    apply Nat.eq_of_testBit_eq
    intro j
    rw [Nat.testBit_two_pow_sub_one]
    by_cases hj : j < k + 1
    · rw [hbits j (by omega) (by omega), decide_eq_true hj]
    · rw [decide_eq_false hj]
      exact Nat.testBit_eq_false_of_lt (hlt.trans_le (Nat.pow_le_pow_right (by decide) (by omega)))
  have hpos : 0 < 2 ^ (k + 1) := Nat.pow_pos (by decide)
  omega

end Foundation
