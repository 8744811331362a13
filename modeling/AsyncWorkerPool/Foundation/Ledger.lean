import Mathlib.Data.Multiset.AddSub

/-!
# Ledger — resources acquired and released

A ledger is the list of what was acquired and released, in order.  `Holds log M` says that nothing
was released that was not held at the time, and that `M` is held at the end; a ledger at the end of
which nothing is held has released everything it acquired, exactly once.
-/

namespace Foundation

inductive Deed (ρ : Type*) where
  | got (r : ρ)
  | gave (r : ρ)
  deriving DecidableEq

variable {ρ : Type*} [DecidableEq ρ]

/-- What is held after an entry; `none` when something is released that is not held. -/
def Deed.apply (M : Multiset ρ) : Deed ρ → Option (Multiset ρ)
  | .got r => some (r ::ₘ M)
  | .gave r => if r ∈ M then some (M.erase r) else none

def Holds (log : List (Deed ρ)) (M : Multiset ρ) : Prop := log.foldlM Deed.apply 0 = some M

instance (log : List (Deed ρ)) (M : Multiset ρ) : Decidable (Holds log M) :=
  inferInstanceAs (Decidable (_ = _))

variable {log : List (Deed ρ)} {M M' : Multiset ρ} {r : ρ}

theorem Holds.nil : Holds ([] : List (Deed ρ)) 0 := rfl

theorem Holds.unique (h : Holds log M) (h' : Holds log M') : M = M' :=
  Option.some.inj (h.symm.trans h')

theorem Holds.got (h : Holds log M) : Holds (log ++ [.got r]) (r ::ₘ M) := by
  rw [Holds, List.foldlM_append, h]
  rfl

theorem Holds.gave (h : Holds log (r ::ₘ M)) : Holds (log ++ [.gave r]) M := by
  rw [Holds, List.foldlM_append, h]
  simp [Deed.apply]

/-- Giving back a list of resources, in whatever order they were acquired. -/
theorem Holds.gaves {l : List ρ} (h : Holds log (↑l + M)) : Holds (log ++ l.map .gave) M := by
  induction l generalizing log with
  | nil => simpa using h
  | cons r l ih =>
    rw [← Multiset.cons_coe, Multiset.cons_add] at h
    have h' := ih h.gave
    rwa [List.append_assoc] at h'

end Foundation
