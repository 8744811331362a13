import Mathlib.Logic.Relation
import Mathlib.Logic.Function.Basic

/-!
# Runs — labelled transition functions and their invariants

A system is a partial step function `σ → α → Option σ`: a label (which party moves, and how) is
enabled in a state when it yields a successor.  Runs are the reflexive transitive closure of the
steps whose label satisfies a side condition, so that "every run whose steps all meet `ok`" is one
relation and its safety properties are proved by one induction rule.
-/

namespace Foundation

variable {σ α : Type*} {step : σ → α → Option σ} {ok ok' : σ → α → Prop}

/-- One step, under some enabled label that `ok` allows in the state before it. -/
def Next (step : σ → α → Option σ) (ok : σ → α → Prop) (s s' : σ) : Prop :=
  ∃ a, ok s a ∧ step s a = some s'

/-- Runs all of whose steps satisfy `ok`. -/
def Steps (step : σ → α → Option σ) (ok : σ → α → Prop) : σ → σ → Prop :=
  Relation.ReflTransGen (Next step ok)

/-- The side condition that allows every step. -/
def anyStep : σ → α → Prop := fun _ _ ↦ True

theorem Steps.refl (s : σ) : Steps step ok s s := Relation.ReflTransGen.refl

theorem Steps.trans {s t u : σ} (h : Steps step ok s t) (h' : Steps step ok t u) :
    Steps step ok s u := Relation.ReflTransGen.trans h h'

theorem Steps.tail {s t u : σ} (h : Steps step ok s t) {a : α} (ha : ok t a)
    (hs : step t a = some u) : Steps step ok s u :=
  Relation.ReflTransGen.tail h ⟨a, ha, hs⟩

theorem Steps.mono (himp : ∀ s a, ok s a → ok' s a) {s t : σ} (h : Steps step ok s t) :
    Steps step ok' s t :=
  Relation.ReflTransGen.mono (fun _ _ ⟨a, ha, hs⟩ ↦ ⟨a, himp _ a ha, hs⟩) _ _ h

/-- A side condition may be exchanged for another that it implies in the states of the run. -/
theorem Steps.mono_under {Q : σ → Prop} {s₀ : σ} (hQ : ∀ t, Steps step ok s₀ t → Q t)
    (himp : ∀ s a, Q s → ok s a → ok' s a) {t : σ} (h : Steps step ok s₀ t) :
    Steps step ok' s₀ t := by
  induction h with
  | refl => exact Steps.refl _
  | tail hr hn ih =>
    obtain ⟨a, ha, hst⟩ := hn
    exact ih.tail (himp _ a (hQ _ hr) ha) hst

/-- **Invariant rule.** What every allowed step preserves, every run preserves. -/
theorem Steps.invariant {P : σ → Prop}
    (hstep : ∀ s a s', P s → ok s a → step s a = some s' → P s')
    {s t : σ} (h : Steps step ok s t) (hs : P s) : P t := by
  induction h with
  | refl => exact hs
  | tail _ hn ih =>
    obtain ⟨a, ha, hst⟩ := hn
    exact hstep _ a _ ih ha hst

/-- Invariant rule that may use an invariant `Q` already known of every state of the run. -/
theorem Steps.invariant_under {P Q : σ → Prop} {s₀ : σ}
    (hQ : ∀ t, Steps step ok s₀ t → Q t)
    (hstep : ∀ s a s', Q s → Q s' → P s → ok s a → step s a = some s' → P s')
    {t : σ} (h : Steps step ok s₀ t) (hs : P s₀) : P t := by
  induction h with
  | refl => exact hs
  | tail hr hn ih =>
    obtain ⟨a, ha, hst⟩ := hn
    exact hstep _ a _ (hQ _ hr) (hQ _ (hr.tail ⟨a, ha, hst⟩)) ih ha hst

/-- The three parts of an outcome, each on its own. -/
theorem outcome_inj {A B C : Type*} {a a' : A} {b b' : B} {c c' : C}
    (h : some (a, b, c) = some (a', b', c')) : a = a' ∧ b = b' ∧ c = c' := by
  cases h
  exact ⟨rfl, rfl, rfl⟩

/-- Runs a list of labels; `none` as soon as one of them is not enabled. -/
def exec (step : σ → α → Option σ) : σ → List α → Option σ
  | s, [] => some s
  | s, a :: as => (step s a).bind (exec step · as)

theorem exec_append (s : σ) (as bs : List α) :
    exec step s (as ++ bs) = (exec step s as).bind (exec step · bs) := by
  induction as generalizing s with
  | nil => rfl
  | cons a as ih =>
    simp only [List.cons_append, exec]
    cases step s a with
    | none => rfl
    | some t => exact ih t

/-- A schedule that executes is a run. -/
theorem exec_steps {s t : σ} {as : List α} (h : exec step s as = some t) :
    Steps step anyStep s t := by
  induction as generalizing s with
  | nil =>
    simp only [exec, Option.some.injEq] at h
    exact h ▸ Steps.refl s
  | cons a as ih =>
    simp only [exec, Option.bind_eq_some_iff] at h
    obtain ⟨u, hu, ht⟩ := h
    exact Relation.ReflTransGen.head ⟨a, trivial, hu⟩ (ih ht)

/-- A schedule that executes is a run under any side condition that its labels always meet. -/
theorem exec_steps_of {s t : σ} {as : List α} (h : exec step s as = some t)
    (hok : ∀ u, ∀ a ∈ as, ok u a) : Steps step ok s t := by
  induction as generalizing s with
  | nil =>
    simp only [exec, Option.some.injEq] at h
    exact h ▸ Steps.refl s
  | cons a as ih =>
    simp only [exec, Option.bind_eq_some_iff] at h
    obtain ⟨u, hu, ht⟩ := h
    have hrest := ih ht fun u b hb ↦ hok u b (List.mem_cons_of_mem a hb)
    exact Relation.ReflTransGen.head ⟨a, hok s a (List.mem_cons_self), hu⟩ hrest

/-- Step `a`, from `t` to `t'`, is one of those that the schedule makes from `s`. -/
def Occurs (step : σ → α → Option σ) (s : σ) (as : List α) (t : σ) (a : α) (t' : σ) : Prop :=
  ∃ pre post, as = pre ++ a :: post ∧ exec step s pre = some t ∧ step t a = some t'

/-- What the steps of a schedule add up to, under a weight for each. -/
def tally (step : σ → α → Option σ) (w : σ → α → σ → Nat) : σ → List α → Nat
  | _, [] => 0
  | s, a :: as =>
    match step s a with
    | none => 0
    | some t => w s a t + tally step w t as

/-- **Accounting rule.** A relation to a number that every step carries over to the number plus the
step's weight is carried over by a schedule to the number plus the sum of the weights. -/
theorem tally_carried {I : σ → Nat → Prop} {w : σ → α → σ → Nat}
    (hI : ∀ s a t k, I s k → step s a = some t → I t (k + w s a t)) {s t : σ} {as : List α} {k : Nat}
    (hs : I s k) (h : exec step s as = some t) : I t (k + tally step w s as) := by
  induction as generalizing s k with
  | nil =>
    cases h
    exact hs
  | cons a as ih =>
    simp only [exec, Option.bind_eq_some_iff] at h
    obtain ⟨u, hu, ht⟩ := h
    simp only [tally, hu, ← Nat.add_assoc]
    exact ih (hI s a u k hs hu) ht

theorem occurs_cons {s u u' : σ} {a b : α} {as : List α} :
    Occurs step s (a :: as) u b u' ↔ (s = u ∧ a = b ∧ step s a = some u') ∨
      ∃ v, step s a = some v ∧ Occurs step v as u b u' := by
  constructor
  · rintro ⟨pre, post, hsplit, hpre, hst⟩
    cases pre with
    | nil =>
      cases hsplit
      cases hpre
      exact Or.inl ⟨rfl, rfl, hst⟩
    | cons e pre =>
      cases hsplit
      simp only [exec, Option.bind_eq_some_iff] at hpre
      obtain ⟨v, hv, hpre⟩ := hpre
      exact Or.inr ⟨v, hv, pre, post, rfl, hpre, hst⟩
  · rintro (⟨rfl, rfl, hst⟩ | ⟨v, hv, pre, post, rfl, hpre, hst⟩)
    · exact ⟨[], as, rfl, rfl, hst⟩
    · exact ⟨a :: pre, post, rfl, by simp only [exec, hv, Option.bind_some, hpre], hst⟩

/-- The weights add up to nothing when every step of the schedule is weightless. -/
theorem tally_eq_zero {w : σ → α → σ → Nat} {s t : σ} {as : List α} (h : exec step s as = some t) :
    tally step w s as = 0 ↔ ∀ u a u', Occurs step s as u a u' → w u a u' = 0 := by
  induction as generalizing s with
  | nil =>
    refine iff_of_true rfl ?_
    rintro u a u' ⟨pre, post, hsplit, -⟩
    simp at hsplit
  | cons a as ih =>
    simp only [exec, Option.bind_eq_some_iff] at h
    obtain ⟨v, hv, ht⟩ := h
    simp only [tally, hv, Nat.add_eq_zero_iff, ih ht, occurs_cons, Option.some.injEq]
    constructor
    · rintro ⟨hw, hrest⟩ u b u' (⟨rfl, rfl, rfl⟩ | ⟨_, rfl, ho⟩)
      · exact hw
      · exact hrest u b u' ho
    · exact fun hall ↦ ⟨hall s a v (Or.inl ⟨rfl, rfl, rfl⟩),
        fun u b u' ho ↦ hall u b u' (Or.inr ⟨v, rfl, ho⟩)⟩

/-- The steps that satisfy a decidable side condition. -/
def guarded (step : σ → α → Option σ) (ok : σ → α → Prop) [∀ s a, Decidable (ok s a)]
    (s : σ) (a : α) : Option σ :=
  if ok s a then step s a else none

/-- A schedule that stays within the side condition executes without it. -/
theorem exec_of_guarded [∀ s a, Decidable (ok s a)] {s t : σ} {as : List α}
    (h : exec (guarded step ok) s as = some t) : exec step s as = some t := by
  induction as generalizing s with
  | nil => exact h
  | cons a as ih =>
    simp only [exec, Option.bind_eq_some_iff, guarded] at h ⊢
    obtain ⟨u, hu, ht⟩ := h
    split at hu
    · exact ⟨u, hu, ih ht⟩
    · cases hu

/-- A schedule that executes and stays within the side condition is such a run. -/
theorem exec_guarded_steps [∀ s a, Decidable (ok s a)] {s t : σ} {as : List α}
    (h : exec (guarded step ok) s as = some t) : Steps step ok s t := by
  induction as generalizing s with
  | nil =>
    simp only [exec, Option.some.injEq] at h
    exact h ▸ Steps.refl s
  | cons a as ih =>
    simp only [exec, Option.bind_eq_some_iff, guarded] at h
    obtain ⟨u, hu, ht⟩ := h
    split at hu
    · rename_i hok
      exact Relation.ReflTransGen.head ⟨a, hok, hu⟩ (ih ht)
    · cases hu

/-- Reading a decidable fact off the end of a schedule. -/
theorem exec_any {s : σ} {as : List α} {P : σ → Bool}
    (h : (exec step s as).any P = true) : ∃ t, exec step s as = some t ∧ P t = true := by
  cases ht : exec step s as with
  | none =>
    rw [ht] at h
    cases h
  | some t =>
    rw [ht] at h
    exact ⟨t, rfl, h⟩

end Foundation
