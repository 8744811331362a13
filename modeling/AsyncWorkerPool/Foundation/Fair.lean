import AsyncWorkerPool.Foundation.Runs
import Mathlib.Data.Countable.Defs
import Mathlib.Data.Set.Card
import Mathlib.Tactic.Choose

/-!
# Fair — what comes about when nobody is held back for ever

That something happens at last is said of infinite runs, and only of those that do not put off the
steps concerned for ever: those of one party (`Eventually`), nothing being asked of the others, or
those of each of countably many classes (`Inevitable`).  Where some step is always possible, every
state has such a run, so that neither holds for want of one.
-/

namespace Foundation

variable {σ α ι : Type*} {step : σ → α → Option σ} {s : σ} {P : σ → Prop}

/-- An infinite run from `s`. -/
structure Path (step : σ → α → Option σ) (s : σ) where
  state : Nat → σ
  label : Nat → α
  start : state 0 = s
  next : ∀ k, step (state k) (label k) = some (state (k + 1))

theorem Path.steps (π : Path step s) (k : Nat) : Steps step anyStep s (π.state k) := by
  induction k with
  | zero =>
    rw [π.start]
    exact .refl s
  | succ k ih => exact ih.tail trivial (π.next k)

/-! ## One party -/

section Party

variable {own : α → Prop}

/-- Again and again, one of the party's steps is made or none is possible. -/
def Path.Fair (own : α → Prop) (π : Path step s) : Prop :=
  ∀ k, ∃ k' ≥ k, own (π.label k') ∨ ∀ a, own a → step (π.state k') a = none

/-- Every run from `s` that is fair to the party comes to `P`. -/
def Eventually (step : σ → α → Option σ) (own : α → Prop) (s : σ) (P : σ → Prop) : Prop :=
  ∀ π : Path step s, π.Fair own → ∃ k, P (π.state k)

/-- Whenever a step of the party is possible, such a run makes one. -/
theorem exists_fair (own : α → Prop) (hgo : ∀ s, ∃ a t, step s a = some t) (s : σ) :
    ∃ π : Path step s, π.Fair own := by
  have hpick : ∀ s, ∃ p : α × σ, step s p.1 = some p.2 ∧
      (own p.1 ∨ ∀ a, own a → step s a = none) := by
    intro s
    by_cases h : ∃ a t, own a ∧ step s a = some t
    · obtain ⟨a, t, ha, ht⟩ := h
      exact ⟨(a, t), ht, Or.inl ha⟩
    · obtain ⟨a, t, ht⟩ := hgo s
      refine ⟨(a, t), ht, Or.inr fun b hb ↦ ?_⟩
      rw [Option.eq_none_iff_forall_ne_some]
      exact fun u hu ↦ h ⟨b, u, hb, hu⟩
  choose pick hstep hfair using hpick
  refine ⟨⟨fun k ↦ k.rec s fun _ t ↦ (pick t).2, fun k ↦ (pick (k.rec s fun _ t ↦ (pick t).2)).1,
    rfl, fun k ↦ hstep _⟩, fun k ↦ ⟨k, Nat.le_refl k, hfair _⟩⟩

theorem Eventually.of_now (h : P s) : Eventually step own s P :=
  fun π _ ↦ ⟨0, π.start.symm ▸ h⟩

/-- What no run reaches does not come about. -/
theorem Eventually.exists_run (hgo : ∀ s, ∃ a t, step s a = some t) (h : Eventually step own s P) :
    ∃ t, Steps step anyStep s t ∧ P t := by
  obtain ⟨π, hπ⟩ := exists_fair own hgo s
  obtain ⟨k, hk⟩ := h π hπ
  exact ⟨_, π.steps k, hk⟩

end Party

/-! ## Many classes -/

/-- Some step of the class is possible.  The class may depend on the state: the steps made at one
place are a class. -/
def Possible (step : σ → α → Option σ) (own : σ → α → Prop) (s : σ) : Prop :=
  ∃ a t, own s a ∧ step s a = some t

/-- If steps of the class are possible again and again, they are made again and again. -/
def Path.Strong (own : σ → α → Prop) (π : Path step s) : Prop :=
  (∀ k, ∃ k' ≥ k, Possible step own (π.state k')) →
    ∀ k, ∃ k' ≥ k, own (π.state k') (π.label k')

/-- Every run from `s` that is fair to each of the classes comes to `P`. -/
def Inevitable (step : σ → α → Option σ) (own : ι → σ → α → Prop) (s : σ) (P : σ → Prop) : Prop :=
  ∀ π : Path step s, (∀ x, π.Strong (own x)) → ∃ k, P (π.state k)

/-- What never rises falls finitely often. -/
theorem not_falls_forever {f : Nat → Nat} {K : Nat} (hle : ∀ k ≥ K, f (k + 1) ≤ f k)
    (hlt : ∀ k ≥ K, ∃ k' ≥ k, f (k' + 1) < f k') : False := by
  have hanti : ∀ {k k'}, K ≤ k → k ≤ k' → f k' ≤ f k := by
    intro k k' hk hkk
    induction hkk with
    | refl => exact le_rfl
    | step hkk ih => exact (hle _ (hk.trans hkk)).trans ih
  have hno : ∀ n k, K ≤ k → f k = n → False := by
    intro n
    induction n using Nat.strong_induction_on with
    | h n ih =>
      intro k hk hn
      obtain ⟨k', hkk, hfall⟩ := hlt k hk
      have hle' := hanti hk hkk
      exact ih _ (by omega) (k' + 1) (by omega) rfl
  exact hno _ K le_rfl rfl

/-- Whoever waits is overtaken finitely often, if those that are served go to the end of the line. -/
theorem not_overtaken_forever {due : Nat → ι → Nat} {code : ι → Nat} (hcode : code.Injective)
    (hle : ∀ k y, code y ≤ due k y) {w K : Nat}
    (hback : ∀ k ≥ K, ∀ y, due (k + 1) y ≤ w → due (k + 1) y = due k y)
    (hover : ∀ k ≥ K, ∃ k' ≥ k, ∃ y, due k' y ≤ w ∧ w < due (k' + 1) y) : False := by
  have hfin : ∀ k, {y | due k y ≤ w}.Finite := fun k ↦
    ((Set.finite_le_nat w).preimage hcode.injOn).subset fun y hy ↦ (hle k y).trans hy
  have hsub : ∀ k ≥ K, {y | due (k + 1) y ≤ w} ⊆ {y | due k y ≤ w} := fun k hk y hy ↦
    (hback k hk y hy).symm.le.trans hy
  -- those in front of it become fewer, and never more again
  refine not_falls_forever (f := fun k ↦ {y | due k y ≤ w}.ncard)
    (fun k hk ↦ Set.ncard_le_ncard (hsub k hk) (hfin k)) fun k hk ↦ ?_
  obtain ⟨k', hkk, y, hy, hlate⟩ := hover k hk
  exact ⟨k', hkk, Set.ncard_lt_ncard
    ⟨hsub k' (hk.trans hkk), fun hall ↦ not_lt.mpr (hall hy) hlate⟩ (hfin k')⟩

/-- The scheduler that serves, of the classes that can move, the one that has waited longest is fair
to all of them. -/
theorem exists_strong [Countable ι] (own : ι → σ → α → Prop) (hgo : ∀ s, ∃ a t, step s a = some t)
    (s : σ) : ∃ π : Path step s, ∀ x, π.Strong (own x) := by
  classical
  obtain ⟨code, hcode⟩ := exists_injective_nat ι
  -- `p.2 y` is when class `y` has been served last, put off by its number
  have hpick : ∀ (k : Nat) (p : σ × (ι → Nat)), ∃ q : α × σ × (ι → Nat),
      step p.1 q.1 = some q.2.1 ∧
      ((∃ y, own y p.1 q.1 ∧ (∀ x, Possible step (own x) p.1 → p.2 y ≤ p.2 x) ∧
          q.2.2 = Function.update p.2 y (k + code y)) ∨
        (∀ x, ¬ Possible step (own x) p.1) ∧ q.2.2 = p.2) := by
    rintro k ⟨t, due⟩
    by_cases h : ∃ x, Possible step (own x) t
    · obtain ⟨a, t', hown, ht⟩ := Function.argminOn_mem due {x | Possible step (own x) t} h
      exact ⟨(a, t', _), ht, Or.inl ⟨_, hown, fun x hx ↦ Function.argminOn_le due _ hx, rfl⟩⟩
    · obtain ⟨a, t', ht⟩ := hgo t
      exact ⟨(a, t', due), ht, Or.inr ⟨not_exists.mp h, rfl⟩⟩
  choose pick hstep hserve using hpick
  obtain ⟨run, hstart, hnext⟩ : ∃ run : Nat → σ × (ι → Nat), run 0 = (s, code) ∧
      ∀ k, run (k + 1) = (pick k (run k)).2 :=
    ⟨fun k ↦ k.rec (s, code) fun k p ↦ (pick k p).2, rfl, fun _ ↦ rfl⟩
  refine ⟨⟨fun k ↦ (run k).1, fun k ↦ (pick k (run k)).1, by rw [hstart],
    fun k ↦ by rw [hnext]; exact hstep k (run k)⟩, fun x hx ↦ ?_⟩
  -- who is served goes to the end of the line
  have hturn : ∀ k y, (run (k + 1)).2 y = (run k).2 y ∨
      (own y (run k).1 (pick k (run k)).1 ∧ (run (k + 1)).2 y = k + code y) := by
    intro k y
    rw [hnext]
    rcases hserve k (run k) with ⟨z, hown, -, hdue⟩ | ⟨-, hdue⟩
    · by_cases hyz : y = z
      · subst hyz
        exact Or.inr ⟨hown, by rw [hdue, Function.update_self]⟩
      · exact Or.inl (by rw [hdue, Function.update_of_ne hyz])
    · exact Or.inl (by rw [hdue])
  have hcode_le : ∀ k y, code y ≤ (run k).2 y := by
    intro k y
    induction k with
    | zero => rw [hstart]
    | succ k ih => rcases hturn k y with hsame | ⟨-, hback⟩ <;> omega
  by_contra hnever
  push Not at hnever
  obtain ⟨K, hK⟩ := hnever
  have hkept : ∀ k ≥ K, (run k).2 x = (run K).2 x := by
    intro k hk
    induction k, hk using Nat.le_induction with
    | base => rfl
    | succ k hk ih =>
      rcases hturn k x with hsame | ⟨hown, -⟩
      · rw [hsame, ih]
      · exact absurd hown (hK k hk)
  refine @not_overtaken_forever ι (fun k ↦ (run k).2) code hcode hcode_le ((run K).2 x)
    (K + (run K).2 x + 1) (fun k hk y hy ↦ ?_) fun k hk ↦ ?_
  · exact (hturn k y).resolve_right fun hback ↦ by omega
  · obtain ⟨k', hkk, hposs⟩ := hx k
    rcases hserve k' (run k') with ⟨y, -, hmin, hdue⟩ | ⟨hno, -⟩
    · refine ⟨k', hkk, y, (hmin x hposs).trans (hkept k' (by omega)).le, ?_⟩
      rw [hnext, hdue, Function.update_self]
      omega
    · exact absurd hposs (hno x)

end Foundation
