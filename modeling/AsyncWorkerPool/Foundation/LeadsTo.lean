import AsyncWorkerPool.Foundation.Fair

/-!
# LeadsTo — what follows on what along an infinite run

`π.LeadsTo P Q`: whenever `P` holds on the run, `Q` holds then or later.  One class of steps to which
the run is fair carries it from `P` to `Q` if the others leave `P` alone (`Path.Strong.leadsTo`); such
stages are put together by a measure that each of them lowers (`Path.LeadsTo.descend`).
-/

namespace Foundation

variable {σ α : Type*} {step : σ → α → Option σ} {s : σ} {π : Path step s}
  {P Q R : σ → Prop}

def Path.LeadsTo (π : Path step s) (P Q : σ → Prop) : Prop :=
  ∀ k, P (π.state k) → ∃ k' ≥ k, Q (π.state k')

/-- Once it holds, `P` holds until `Q` does, if that ever happens. -/
def Path.Unless (π : Path step s) (P Q : σ → Prop) : Prop :=
  ∀ k, P (π.state k) → P (π.state (k + 1)) ∨ Q (π.state (k + 1))

namespace Path

theorem Unless.stays (h : π.Unless P Q) {k : Nat} (hP : P (π.state k))
    (hno : ∀ k' ≥ k, ¬ Q (π.state k')) {k' : Nat} (hk : k ≤ k') : P (π.state k') := by
  induction k', hk using Nat.le_induction with
  | base => exact hP
  | succ k' hk ih => exact (h k' ih).resolve_right (hno (k' + 1) (hk.trans (Nat.le_succ k')))

namespace LeadsTo

theorem of_imp (h : ∀ k, P (π.state k) → Q (π.state k)) : π.LeadsTo P Q :=
  fun k hP ↦ ⟨k, le_rfl, h k hP⟩

theorem trans (h : π.LeadsTo P Q) (h' : π.LeadsTo Q R) : π.LeadsTo P R := by
  intro k hP
  obtain ⟨k', hk, hQ⟩ := h k hP
  obtain ⟨k'', hk', hR⟩ := h' k' hQ
  exact ⟨k'', hk.trans hk', hR⟩

/-- A way round on which `Q` may still be missing. -/
theorem cancel (h : π.LeadsTo P fun t ↦ R t ∨ Q t) (h' : π.LeadsTo R Q) : π.LeadsTo P Q := by
  refine h.trans fun k hk ↦ ?_
  rcases hk with hR | hQ
  · exact h' k hR
  · exact ⟨k, le_rfl, hQ⟩

/-- What is to come, comes while `P` lasts. -/
theorem meet {E : σ → Prop} (hkeep : π.Unless P Q) (h : π.LeadsTo E R) :
    π.LeadsTo (fun t ↦ P t ∧ E t) fun t ↦ (P t ∧ R t) ∨ Q t := by
  intro k ⟨hP, hE⟩
  by_contra hno
  push Not at hno
  have hstay : ∀ k' ≥ k, P (π.state k') := fun k' hk ↦
    hkeep.stays hP (fun k'' hk' ↦ (hno k'' hk').2) hk
  obtain ⟨k', hk, hR⟩ := h k hE
  exact (hno k' hk).1 (hstay k' hk) hR

/-- Each stage lowers the measure, until `Q` is reached. -/
theorem descend (μ : σ → Nat)
    (h : ∀ n, π.LeadsTo (fun t ↦ P t ∧ μ t = n) fun t ↦ (P t ∧ μ t < n) ∨ Q t) : π.LeadsTo P Q := by
  intro k hP
  induction hn : μ (π.state k) using Nat.strong_induction_on generalizing k with
  | h n ih =>
    obtain ⟨k', hk, ⟨hP', hlt⟩ | hQ⟩ := h n k ⟨hP, hn⟩
    · obtain ⟨k'', hk', hQ⟩ := ih _ hlt k' hP' rfl
      exact ⟨k'', hk.trans hk', hQ⟩
    · exact ⟨k', hk, hQ⟩

end LeadsTo

/-- A class of steps that is possible as long as `P` lasts, and brings about `Q`. -/
theorem Strong.leadsTo {own : σ → α → Prop} (hfair : π.Strong own) (hkeep : π.Unless P Q)
    (hown : ∀ k, P (π.state k) → own (π.state k) (π.label k) → Q (π.state (k + 1)))
    (hgo : π.LeadsTo P fun t ↦ Possible step own t ∨ Q t) : π.LeadsTo P Q := by
  intro k hP
  by_contra hno
  push Not at hno
  have hstay : ∀ k' ≥ k, P (π.state k') := fun k' hk ↦ hkeep.stays hP hno hk
  obtain ⟨k', hk, hmade⟩ := hfair (fun j ↦ by
    obtain ⟨j', hj, hposs | hQ⟩ := hgo (max k j) (hstay _ (le_max_left k j))
    · exact ⟨j', (le_max_right k j).trans hj, hposs⟩
    · exact absurd hQ (hno j' ((le_max_left k j).trans hj))) k
  exact hno (k' + 1) (hk.trans (Nat.le_succ k')) (hown k' (hstay k' hk) hmade)

end Path

end Foundation
