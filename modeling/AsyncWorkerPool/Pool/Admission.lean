import AsyncWorkerPool.Pool.Fifo

/-!
# Admission — what a call leaves behind

`reserved`, `published` and `counted` read off a call's location what it has done so far: taken a
position, published it, counted it in `submitted`.  Every step of the call changes the pool by as
much as it changes these, so that the result of a call tells what the whole call has done.
-/

open Foundation

namespace Awp

/-! ## What a call has done so far -/

/-- One, if the slot is on ring `i`. -/
def slotOn (i : Nat) (slot : Option (Nat × Nat)) : Nat := slot.elim 0 fun x ↦ if x.1 = i then 1 else 0

/-- Positions taken on ring `i`. -/
def ApiPc.reserved (i : Nat) (l : Loc Nat Nat) : ApiPc → Nat
  | .reserve j =>
    match l with
    | .held _ => if j.sh = i then 1 else 0
    | _ => 0
  | .activate j _ | .fill j _ _ | .claimed j _ | .publish j _ | .submitted j _ =>
    if j.sh = i then 1 else 0
  | .deactivate _ _ slot | .leave _ _ slot | .done _ slot => slotOn i slot
  | _ => 0

/-- Positions published on ring `i`. -/
def ApiPc.published (i : Nat) (l : Loc Nat Nat) : ApiPc → Nat
  | .publish j _ =>
    match l with
    | .wake _ _ | .ret _ => if j.sh = i then 1 else 0
    | _ => 0
  | .submitted j _ => if j.sh = i then 1 else 0
  | .deactivate _ _ slot | .leave _ _ slot | .done _ slot => slotOn i slot
  | _ => 0

/-- Frames counted in `submitted`. -/
def ApiPc.counted : ApiPc → Nat
  | .deactivate _ _ slot | .leave _ _ slot | .done _ slot => if slot.isSome then 1 else 0
  | _ => 0

section Next

variable {c : Config} {m : Ctl} {d d' : Dat} {l l' : Loc Nat Nat} {x : Choice} {k : Cmd}
  {p p' : ApiPc} {sh sh' : Nat}

/-- At this location nothing has been done. -/
def ApiPc.Blank (p : ApiPc) : Prop :=
  ∀ i, p.reserved i .idle = 0 ∧ p.published i .idle = 0 ∧ p.counted = 0

end Next

/-! ## What a call has done in a run -/

/-- The call's own steps add to `f`. -/
def Pool.own (n : Nat) (f : Pool → Nat) (s : Pool) (e : Label) (s' : Pool) : Nat :=
  match e with
  | .step (.api m) _ => if m = n then f s' - f s else 0
  | _ => 0

def Pc.reserved (i : Nat) (l : Loc Nat Nat) : Pc → Nat
  | .api p => p.reserved i l
  | _ => 0

def Pc.published (i : Nat) (l : Loc Nat Nat) : Pc → Nat
  | .api p => p.published i l
  | _ => 0

def Pc.counted : Pc → Nat
  | .api p => p.counted
  | _ => 0

section Own

variable {c : Config} {s s' : Pool} {n : Nat}

/-- What is known of call `n` while it goes on. -/
structure Followed (c : Config) (n : Nat) (s : Pool) : Prop where
  sound : Sound c s
  accounts : Accounts s
  tracked : ∃ i, Tracked c s n i 0

theorem Followed.step (h : Followed c n s) {e : Label} (hst : s.step c e = some s') :
    Followed c n s' where
  sound := h.sound.step hst
  accounts := h.accounts.step h.sound.seated hst
  tracked := h.tracked.imp fun _ ht ↦ ht.step h.sound hst

end Own

/-! ## Parties that have made no call -/

section Idle

variable {c : Config} {s s' : Pool}

/-- All calls stand at locations in `P`. -/
def Pool.Every (s : Pool) (P : Pc → Bool) : Prop := ∀ n, P (s.thr (.api n)).pc = true

/-- The calls of the first `b` parties do. -/
def Pool.EveryBelow (b : Nat) (s : Pool) (P : Pc → Bool) : Prop :=
  ∀ n < b, P (s.thr (.api n)).pc = true

instance (b : Nat) (P : Pc → Bool) : Decidable (s.EveryBelow b P) :=
  inferInstanceAs (Decidable (∀ n < b, P (s.thr (.api n)).pc = true))

/-- The label begins no call of a party from `b` on. -/
def Label.below (b : Nat) : Label → Bool
  | .call n _ _ | .shutdown n _ | .destroy n => n < b
  | _ => true

def Pool.IdleFrom (b : Nat) (s : Pool) : Prop := ∀ n ≥ b, (s.thr (.api n)).pc = .api .idle

theorem Pool.IdleFrom.init (b now : Nat) : (Pool.init c now).IdleFrom b := fun _ _ ↦ rfl

theorem Pool.IdleFrom.step {b : Nat} (h : s.IdleFrom b) (hs : Seated c s) {e : Label}
    (he : e.below b = true) (hst : s.step c e = some s') : s'.IdleFrom b := by
  intro n hn
  have hidle := h n hn
  rcases Pool.step_cases hst with ⟨t, -, rfl⟩ | ⟨k, pc, -, hpc, rfl⟩ |
    ⟨a, x, spurious, r, l, rfl, -, hact, -, -, rfl⟩ | ⟨a, x, m, d, pc, k, sh, l, rfl, -, -, hnext, -, rfl⟩
  · exact hidle
  · have hlt : k < b := by
      rcases hpc with ⟨pool, f, rfl, -⟩ | ⟨tls, rfl, -⟩ | ⟨rfl, -⟩ <;> exact of_decide_eq_true he
    dsimp only
    rw [Function.update_of_ne (by simpa using (hlt.trans_le hn).ne')]
    exact hidle
  · -- nobody is inside a ring function without a call
    have hne : .api n ≠ a := by
      rintro rfl
      rw [hs.idle_loc hidle] at hact
      cases hact
    dsimp only
    rw [Function.update_of_ne hne]
    exact hidle
  · have hne : .api n ≠ a := by
      rintro rfl
      simp [Pool.next, hidle, ApiPc.next] at hnext
    dsimp only
    rw [Function.update_of_ne hne]
    exact hidle

theorem Pool.IdleFrom.run {b now : Nat} {ok : Pool → Label → Prop}
    (hok : ∀ t e, ok t e → e.below b = true) (hrun : Steps (Pool.step c) ok (Pool.init c now) s) :
    s.IdleFrom b :=
  hrun.invariant_under (P := Pool.IdleFrom b) (fun _ ht ↦ (Sound.run ht).seated)
    (fun t e _ hs _ h he hst ↦ h.step hs (hok t e he) hst) (.init b now)

theorem Pool.EveryBelow.every {b : Nat} {P : Pc → Bool} (h : s.EveryBelow b P) (hs : s.IdleFrom b)
    (hP : P (.api .idle) = true) : s.Every P := fun n ↦ by
  by_cases hn : n < b
  · exact h n hn
  · rw [hs n (not_lt.mp hn)]
    exact hP

end Idle

/-! ## Results and references -/

section Results

variable {c : Config} {now : Nat} {s s' : Pool} {n : Nat}

theorem Ring.step_pushes {cap : Nat} {a : Agent} {spurious : Bool} {r r' : Ring Nat Agent Nat}
    {l l' : Loc Nat Nat} (h : r.step cap a spurious l = some (r', l')) :
    r'.pushes = r.pushes ∨ ∃ x, r'.pushes = r.pushes ++ [x] := by
  cases l with
  | wake w v => cases w <;> simp only [Ring.step, Ring.wakeStep] at h <;> grind
  | wait q w k => cases w <;> simp only [Ring.step, Ring.waitStep] at h <;> grind
  | popTake sc spin pos => cases sc <;> simp only [Ring.step] at h <;> grind
  | pubSeq sp frame pos =>
    cases h
    exact Or.inr ⟨_, rfl⟩
  | _ =>
    simp only [Ring.step, Ring.setCell] at h
    grind

/-- No call is on its way there: a claim may be out, all other calls have returned. -/
def ApiPc.resting : ApiPc → Bool
  | .idle | .claimed _ _ | .done _ _ | .read _ => true
  | _ => false

def Pc.resting : Pc → Bool
  | .api p => p.resting
  | _ => true

/-- A claim that has been obtained and not yet committed. -/
def Pc.claims : Pc → Bool
  | .api (.claimed _ _) => true
  | _ => false

theorem ApiCall.start_blank (f : ApiCall) (pool : Bool) : (f.start c pool).Blank := by
  cases f <;> simp only [ApiCall.start] <;> repeat' split
  all_goals exact fun _ ↦ ⟨rfl, rfl, rfl⟩

/-- A call that begins is followed from a blank start. -/
theorem Followed.start (h : Sound c s) (ha : Accounts s) {pool : Bool} {f : ApiCall}
    (hst : s.step c (.call n pool f) = some s') :
    Followed c n s' ∧ ∀ i, (s'.thr (.api n)).pc.reserved i (s'.thr (.api n)).loc = 0 ∧
      (s'.thr (.api n)).pc.published i (s'.thr (.api n)).loc = 0 ∧
      (s'.thr (.api n)).pc.counted = 0 := by
  obtain ⟨i₀, hw⟩ := f.start_within (c := c) pool
  have hstart := Tracked.start h hst hw
  refine ⟨⟨h.step hst, ha.step h.seated hst, i₀, hstart.call.imp fun p hp ↦
    ⟨hp.1, hp.2.mono fun _ _ ↦ Nat.zero_le _⟩, fun _ _ ↦ Nat.zero_le _, Nat.zero_le _⟩, fun i ↦ ?_⟩
  rcases Pool.step_cases hst with ⟨t, he, -⟩ | ⟨n', pc, hidle, hpc, rfl⟩ |
    ⟨a, x, spurious, r, l, he, -⟩ | ⟨a, x, m, d, pc, k, sh, l, he, -⟩
  · cases he
  · rcases hpc with ⟨pool', f', he, rfl⟩ | ⟨tls, he, -⟩ | ⟨he, -⟩ <;> cases he
    simp only [Function.update_self, h.seated.idle_loc hidle, Pc.reserved, Pc.published, Pc.counted]
    exact f.start_blank pool i
  · cases he
  · cases he

end Results

end Awp
