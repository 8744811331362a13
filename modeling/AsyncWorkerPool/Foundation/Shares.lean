import Mathlib.Data.List.Perm.Basic
import Mathlib.Logic.Function.Basic

/-!
# Shares — items divided among parties

Every party has a list of items.  `Shares U own` says that the lists divide up `U`: every item of it
is in exactly one list, once.  A free list is one more party, so that allocation and release are
both the same move of an item from one party to another.
-/

namespace Foundation

variable {P I : Type*} {U : I → Prop} {own own' : P → List I}

/-- The lists of the parties divide up `U`. -/
structure Shares (U : I → Prop) (own : P → List I) : Prop where
  nodup : ∀ p, (own p).Nodup
  sole : ∀ p q i, i ∈ own p → i ∈ own q → p = q
  cover : ∀ i, U i ↔ ∃ p, i ∈ own p

theorem Shares.disjoint (h : Shares U own) {p q : P} {i : I} (hpq : p ≠ q) (hi : i ∈ own p) :
    i ∉ own q := fun hq ↦ hpq (h.sole p q i hi hq)

theorem Shares.inside (h : Shares U own) {p : P} {i : I} (hi : i ∈ own p) : U i :=
  (h.cover i).mpr ⟨p, hi⟩

/-- The order of a party's items does not matter. -/
theorem Shares.perm (h : Shares U own) (hp : ∀ p, (own' p).Perm (own p)) : Shares U own' where
  nodup p := (hp p).nodup_iff.mpr (h.nodup p)
  sole p q i hi hq := h.sole p q i ((hp p).mem_iff.mp hi) ((hp q).mem_iff.mp hq)
  cover i := (h.cover i).trans (exists_congr fun p ↦ (hp p).mem_iff.symm)

/-- Party `p` gives item `i` to party `q`. -/
theorem Shares.move (h : Shares U own) {p q : P} {i : I} (hpq : p ≠ q)
    (hp : (own p).Perm (i :: own' p)) (hq : (own' q).Perm (i :: own q))
    (hrest : ∀ r, r ≠ p → r ≠ q → own' r = own r) : Shares U own' := by
  have hpn : (i :: own' p).Nodup := hp.nodup_iff.mp (h.nodup p)
  have hi : i ∈ own p := hp.mem_iff.mpr List.mem_cons_self
  have hiq : i ∉ own q := h.disjoint hpq hi
  -- where an item is after the move, in terms of where it was
  have hmem : ∀ r j, j ∈ own' r ↔ (j ≠ i ∧ j ∈ own r) ∨ (j = i ∧ r = q) := by
    intro r j
    by_cases hrp : r = p
    · subst hrp
      rw [hp.mem_iff, List.mem_cons]
      constructor
      · intro hj
        exact Or.inl ⟨fun he ↦ (List.nodup_cons.mp hpn).1 (he ▸ hj), Or.inr hj⟩
      · rintro (⟨hne, he | hj⟩ | ⟨-, he⟩)
        · exact absurd he hne
        · exact hj
        · exact absurd he hpq
    · by_cases hrq : r = q
      · subst hrq
        rw [hq.mem_iff, List.mem_cons]
        constructor
        · rintro (he | hj)
          · exact Or.inr ⟨he, rfl⟩
          · exact Or.inl ⟨fun he ↦ hiq (he ▸ hj), hj⟩
        · rintro (⟨-, hj⟩ | ⟨he, -⟩)
          · exact Or.inr hj
          · exact Or.inl he
      · rw [hrest r hrp hrq]
        constructor
        · intro hj
          exact Or.inl ⟨fun he ↦ hrp (h.sole r p i (he ▸ hj) hi), hj⟩
        · rintro (⟨-, hj⟩ | ⟨-, he⟩)
          · exact hj
          · exact absurd he hrq
  refine ⟨fun r ↦ ?_, fun r t j hr ht ↦ ?_, fun j ↦ (h.cover j).trans ⟨?_, ?_⟩⟩
  · by_cases hrp : r = p
    · exact hrp ▸ (List.nodup_cons.mp hpn).2
    · by_cases hrq : r = q
      · subst hrq
        exact hq.nodup_iff.mpr (List.nodup_cons.mpr ⟨hiq, h.nodup r⟩)
      · exact hrest r hrp hrq ▸ h.nodup r
  · rcases (hmem r j).mp hr with ⟨hne, hj⟩ | ⟨he, hrq⟩
    · rcases (hmem t j).mp ht with ⟨-, hj'⟩ | ⟨he, -⟩
      · exact h.sole r t j hj hj'
      · exact absurd he hne
    · rcases (hmem t j).mp ht with ⟨hne, -⟩ | ⟨-, htq⟩
      · exact absurd he hne
      · exact hrq.trans htq.symm
  · rintro ⟨r, hr⟩
    by_cases he : j = i
    · exact ⟨q, (hmem q j).mpr (Or.inr ⟨he, rfl⟩)⟩
    · exact ⟨r, (hmem r j).mpr (Or.inl ⟨he, hr⟩)⟩
  · rintro ⟨r, hr⟩
    rcases (hmem r j).mp hr with ⟨-, hj⟩ | ⟨he, -⟩
    · exact ⟨r, hj⟩
    · exact ⟨p, he ▸ hi⟩

end Foundation
