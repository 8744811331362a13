import Mathlib.Data.Finset.Card
import Mathlib.Logic.Function.Basic

/-!
# Counted — a shared counter that counts the parties inside a region

Concurrent code keeps reference counts by hand: a party increments on entry and decrements on
exit.  `Counted P n` says that exactly finitely many parties satisfy `P` and that `n` is their
number, for an arbitrary (possibly infinite) type of parties.
-/

namespace Foundation

variable {A : Type*} [DecidableEq A] {P Q : A → Prop} {n : Int}

/-- The parties satisfying `P` are finitely many, and `n` of them. -/
def Counted (P : A → Prop) (n : Int) : Prop :=
  ∃ S : Finset A, (∀ a, a ∈ S ↔ P a) ∧ n = S.card

omit [DecidableEq A] in
theorem Counted.zero (h : ∀ a, ¬ P a) : Counted P 0 :=
  ⟨∅, fun a ↦ by simp [h a], by simp⟩

omit [DecidableEq A] in
theorem Counted.congr (h : Counted P n) (hPQ : ∀ a, P a ↔ Q a) : Counted Q n := by
  obtain ⟨S, hS, hn⟩ := h
  exact ⟨S, fun a ↦ (hS a).trans (hPQ a), hn⟩

omit [DecidableEq A] in
theorem Counted.pos (h : Counted P n) {a : A} (ha : P a) : 0 < n := by
  obtain ⟨S, hS, rfl⟩ := h
  exact Int.natCast_pos.mpr (Finset.card_pos.mpr ⟨a, (hS a).mpr ha⟩)

omit [DecidableEq A] in
theorem Counted.none_of_le_zero (h : Counted P n) (hn : n ≤ 0) (a : A) : ¬ P a :=
  fun ha ↦ absurd (h.pos ha) (by omega)

/-- One party enters the region. -/
theorem Counted.enter (h : Counted P n) {b : A} (hb : ¬ P b)
    (hQ : ∀ a, Q a ↔ P a ∨ a = b) : Counted Q (n + 1) := by
  obtain ⟨S, hS, rfl⟩ := h
  refine ⟨insert b S, fun a ↦ ?_, ?_⟩
  · rw [Finset.mem_insert, hS a, hQ a]
    exact or_comm
  · rw [Finset.card_insert_of_notMem (fun hm ↦ hb ((hS b).mp hm))]
    push_cast
    rfl

/-- One party leaves the region. -/
theorem Counted.leave (h : Counted P n) {b : A} (hb : P b)
    (hQ : ∀ a, Q a ↔ P a ∧ a ≠ b) : Counted Q (n - 1) := by
  obtain ⟨S, hS, rfl⟩ := h
  refine ⟨S.erase b, fun a ↦ ?_, ?_⟩
  · rw [Finset.mem_erase, hS a, hQ a]
    exact and_comm
  · have hcard := Finset.card_erase_add_one ((hS b).mpr hb)
    omega

/-- One party moves, and the counter follows it. -/
theorem Counted.move {f g : A → Bool} (h : Counted (fun a ↦ f a = true) n) {b : A} {n' : Int}
    (hother : ∀ a, a ≠ b → g a = f a) (hn : n' = n + (g b).toInt - (f b).toInt) :
    Counted (fun a ↦ g a = true) n' := by
  have hiff : ∀ a, a ≠ b → (g a = true ↔ f a = true) := fun a ha ↦ by rw [hother a ha]
  cases hf : f b <;> cases hg : g b <;> rw [hf, hg] at hn
  · rw [show n' = n by simpa using hn]
    refine h.congr fun a ↦ ?_
    by_cases ha : a = b
    · rw [ha, hf, hg]
    · exact (hiff a ha).symm
  · rw [show n' = n + 1 by simpa using hn]
    refine h.enter (b := b) (by rw [hf]; decide) fun a ↦ ?_
    by_cases ha : a = b
    · simp [ha, hg]
    · simp [ha, hiff a ha]
  · rw [show n' = n - 1 by simpa using hn]
    refine h.leave (b := b) hf fun a ↦ ?_
    by_cases ha : a = b
    · simp [ha, hg]
    · simp [ha, hiff a ha]
  · rw [show n' = n by rw [hn]; simp]
    refine h.congr fun a ↦ ?_
    by_cases ha : a = b
    · rw [ha, hf, hg]
    · exact (hiff a ha).symm

omit [DecidableEq A] in
/-- A counter that counts a part of the parties counts them all when it counts as many. -/
theorem Counted.of_subset (h : Counted P n) (h' : Counted Q n) (hQP : ∀ a, Q a → P a) :
    ∀ a, P a → Q a := by
  obtain ⟨S, hS, hn⟩ := h
  obtain ⟨T, hT, hn'⟩ := h'
  have hsub : T ⊆ S := fun a ha ↦ (hS a).mpr (hQP a ((hT a).mp ha))
  have heq : T = S := Finset.eq_of_subset_of_card_le hsub (by omega)
  intro a ha
  exact (hT a).mp (heq ▸ (hS a).mpr ha)

omit [DecidableEq A] in
/-- Two counters of the same region agree. -/
theorem Counted.unique {n' : Int} (h : Counted P n) (h' : Counted P n') : n = n' := by
  obtain ⟨S, hS, rfl⟩ := h
  obtain ⟨S', hS', rfl⟩ := h'
  rw [Finset.ext fun a ↦ (hS a).trans (hS' a).symm]

end Foundation
