import Mathlib.Logic.Function.Basic

/-!
# Mutex — a lock word that names its holder

Whether a party is inside the critical section can be read off its location.  `Guards` says that
this and the lock word agree; `Turn` is what one step of a party can do about the two.
-/

namespace Foundation

variable {A : Type*} {holder holder' : Option A} {inside inside' : A → Bool} {a b : A}

/-- The holder of the lock is inside, and nobody else. -/
def Guards (holder : Option A) (inside : A → Bool) : Prop := ∀ a, inside a = true ↔ holder = some a

/-- Party `a` stays where it is, takes a free lock, or gives it back. -/
inductive Turn (a : A) : Option A → Option A → Bool → Bool → Prop where
  | keep {holder : Option A} {was : Bool} : Turn a holder holder was was
  | acquire : Turn a none (some a) false true
  | release {holder : Option A} : Turn a holder none true false

theorem Guards.init (h : ∀ a, inside a = false) : Guards none inside := fun a ↦ by
  rw [h a]
  exact ⟨nofun, nofun⟩

/-- Mutual exclusion. -/
theorem Guards.sole (h : Guards holder inside) (ha : inside a = true) (hb : inside b = true) :
    a = b := Option.some.inj (((h a).mp ha).symm.trans ((h b).mp hb))

theorem Guards.turn (h : Guards holder inside) (ht : Turn a holder holder' (inside a) (inside' a))
    (hother : ∀ b, b ≠ a → inside' b = inside b) : Guards holder' inside' := by
  intro b
  by_cases hb : b = a
  · subst hb
    -- its own step
    generalize hi : inside b = i at ht
    generalize hi' : inside' b = i' at ht
    cases ht with
    | keep => rw [← hi]; exact h b
    | acquire => exact ⟨fun _ ↦ rfl, fun _ ↦ rfl⟩
    | release => exact ⟨nofun, nofun⟩
  · rw [hother b hb]
    generalize hi : inside a = i at ht
    generalize inside' a = i' at ht
    cases ht with
    | keep => exact h b
    | acquire =>
      refine ⟨fun hin ↦ ?_, fun heq ↦ absurd (Option.some.inj heq).symm hb⟩
      cases (h b).mp hin
    | release => exact ⟨fun hin ↦ absurd (h.sole hin hi) hb, nofun⟩

end Foundation
