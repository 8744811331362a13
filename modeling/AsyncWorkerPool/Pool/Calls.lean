import AsyncWorkerPool.Pool.Order

/-!
# Calls — what a public call owns on its way

A call of the producer's side is followed from its start to its result: the shard it is for, the
position it has reserved, and the references it has taken.  The two reference counts of the pool
are the numbers of calls that stand where a reference is held.
-/

open Foundation

namespace Awp

/-! ## The shard and the slot of a call -/

/-- The shard that `awp_submit` computes. -/
def Config.shardOf (c : Config) (a : Args) : Nat :=
  c.clampShard (c.computeShard a.feed a.symbol a.flags)

/-- The call has begun; it is for shard `i`, and the position it holds or has filled satisfies
`P`. -/
def ApiPc.Within (c : Config) (i : Nat) (P : Nat → Prop) : ApiPc → Prop
  | .submitEnter a | .submitActive a | .submitGate a _ => c.shardOf a = i
  | .retry j | .claimEnter j | .gate j _ | .reserve j | .waitSpace j | .drop j => j.sh = i
  | .activate j pos | .fill j pos _ | .claimed j pos | .publish j pos | .submitted j pos =>
    j.sh = i ∧ P pos
  | .deactivate j _ slot | .leave j _ slot => j.sh = i ∧ ∀ x ∈ slot, x.1 = i ∧ P x.2
  | .done _ slot => ∀ x ∈ slot, x.1 = i ∧ P x.2
  | .readEnter _ | .readDropped | .readAbandoned _ | .readLeave _ | .read _ => True
  | .idle => False

section Within

variable {c : Config} {i : Nat} {P Q : Nat → Prop}

theorem ApiPc.Within.mono {p : ApiPc} (h : p.Within c i P) (hPQ : ∀ pos, P pos → Q pos) :
    p.Within c i Q := by
  cases p with
  | activate j pos | fill j pos ws | claimed j pos | publish j pos | submitted j pos =>
    exact ⟨h.1, hPQ _ h.2⟩
  | deactivate j rc slot | leave j rc slot => exact ⟨h.1, fun x hx ↦ ⟨(h.2 x hx).1, hPQ _ (h.2 x hx).2⟩⟩
  | done rc slot => exact fun x hx ↦ ⟨(h x hx).1, hPQ _ (h x hx).2⟩
  | _ => exact h

theorem Job.within_reject (j : Job) (rc : Int) (h : j.sh = i) : (j.reject rc).Within c i P := by
  rw [Job.reject]
  cases j.kind <;> exact ⟨h, by simp⟩

theorem Job.within_again (j : Job) {loop : Job → ApiPc} (h : j.sh = i)
    (hloop : ∀ j' : Job, j'.sh = j.sh → (loop j').Within c i P) : (j.again loop).Within c i P := by
  rw [Job.again]
  split
  · exact hloop _ rfl
  · exact h

theorem Job.within_refused (j : Job) (v : Ret Nat Nat) (h : j.sh = i) :
    (j.refused v).Within c i P := by
  have hagain : (j.again (ApiPc.gate · .lifecycle)).Within c i P :=
    j.within_again h fun j' hj ↦ hj.trans h
  simp only [Job.refused]
  cases j.kind <;> cases v <;> first | exact h | exact ⟨h, by simp⟩ | exact hagain

theorem Job.within_return (j : Job) (rc : Int) (slot : Option (Nat × Nat)) (h : j.sh = i)
    (hslot : ∀ x ∈ slot, x.1 = i ∧ P x.2) : (j.return rc slot).Within c i P := by
  rw [Job.return]
  cases j.kind with
  | submit a ns | claim => exact hslot
  | keyed a =>
    dsimp only
    split
    · exact hslot
    · exact j.within_again h fun j' hj ↦ hj.trans h

/-- A call stays with its shard, and its slot is the one it reserved. -/
theorem ApiPc.Within.next {m : Ctl} {d d' : Dat} {l : Loc Nat Nat} {x : Choice} {k : Cmd}
    {p p' : ApiPc} (hn : p.next c m d l x = some (d', p', k)) (h : p.Within c i P)
    (hheld : ∀ pos, l = .held pos → P pos) : p'.Within c i P := by
  cases p with
  | idle | done rc slot | read v => cases hn
  | submitEnter a =>
    obtain ⟨rfl, rfl, rfl⟩ := outcome_inj hn
    split
    · exact h
    · exact ⟨h, by simp⟩
  | submitGate a g =>
    obtain ⟨rfl, rfl, rfl⟩ := outcome_inj hn
    split
    · cases g <;> exact h
    · exact ⟨h, by simp⟩
  | retry j =>
    obtain ⟨rfl, rfl, rfl⟩ := outcome_inj hn
    split
    · exact j.within_again h fun j' hj ↦ hj.trans h
    · exact h
  | gate j g =>
    obtain ⟨rfl, rfl, rfl⟩ := outcome_inj hn
    split
    · cases g <;> exact h
    · exact j.within_reject _ h
  | reserve j =>
    cases l with
    | idle =>
      obtain ⟨rfl, rfl, rfl⟩ := outcome_inj hn
      exact h
    | held pos =>
      obtain ⟨rfl, rfl, rfl⟩ := outcome_inj hn
      cases j.kind <;> exact ⟨h, hheld pos rfl⟩
    | ret v =>
      obtain ⟨rfl, rfl, rfl⟩ := outcome_inj hn
      exact j.within_refused v h
    | _ => cases hn
  | waitSpace j =>
    cases l with
    | idle =>
      obtain ⟨rfl, rfl, rfl⟩ := outcome_inj hn
      exact h
    | ret v =>
      obtain ⟨rfl, rfl, rfl⟩ := outcome_inj hn
      cases j.kind <;> exact h
    | _ => cases hn
  | drop j =>
    obtain ⟨rfl, rfl, rfl⟩ := outcome_inj hn
    exact ⟨h, by simp⟩
  | fill j pos ws =>
    cases ws with
    | cons f ws =>
      obtain ⟨rfl, rfl, rfl⟩ := outcome_inj hn
      exact h
    | nil =>
      obtain ⟨rfl, rfl, rfl⟩ := outcome_inj hn
      cases j.kind <;> exact h
  | claimed j pos =>
    cases x <;> cases hn <;> exact h
  | publish j pos =>
    cases l <;> cases hn <;> exact h
  | submitted j pos =>
    obtain ⟨rfl, rfl, rfl⟩ := outcome_inj hn
    refine ⟨h.1, fun x hx ↦ ?_⟩
    cases hx
    exact ⟨h.1, h.2⟩
  | leave j rc slot =>
    obtain ⟨rfl, rfl, rfl⟩ := outcome_inj hn
    exact j.within_return rc slot h.1 h.2
  | readEnter r =>
    obtain ⟨rfl, rfl, rfl⟩ := outcome_inj hn
    cases r <;> exact trivial
  | _ =>
    obtain ⟨rfl, rfl, rfl⟩ := outcome_inj hn
    exact h

/-- A call that has just begun has no slot. -/
theorem ApiCall.start_within (f : ApiCall) (pool : Bool) :
    ∃ i, ∀ P : Nat → Prop, (f.start c pool).Within c i P := by
  cases f <;> simp only [ApiCall.start] <;> repeat' split
  all_goals first
    | exact ⟨0, fun _ ↦ trivial⟩
    | exact ⟨_, fun _ ↦ rfl⟩
    | exact ⟨0, fun _ ↦ by simp [ApiPc.Within]⟩

end Within

/-! ## The position of a call in its ring -/

section Held

variable {c : Config} {s s' : Pool}

/-- A slot is handed out at `enqueue_pos`. -/
theorem Ring.step_held {cap : Nat} {a : Agent} {spurious : Bool} {r r' : Ring Nat Agent Nat}
    {l : Loc Nat Nat} {pos : Nat} (h : r.step cap a spurious l = some (r', .held pos)) :
    r.enqueuePos = pos ∧ r'.enqueuePos = pos + 1 := by
  cases l with
  | wake w v => cases w <;> simp only [Ring.step, Ring.wakeStep] at h <;> grind
  | wait q w k =>
    cases w <;> simp only [Ring.step, Ring.waitStep] at h <;> cases k <;> grind [Resume.loc]
  | popTake sc spin pos => cases sc <;> simp only [Ring.step] at h <;> grind
  | enqClosed k spin | enqSeq k spin pos | enqCas k spin pos =>
    cases k <;> simp only [Ring.step, Enq.ready, Enq.full, Enq.ahead, Enq.lost, Enq.reserved,
      offset_nat] at h <;> grind
  | _ =>
    simp only [Ring.step, Ring.setCell] at h
    grind

/-- Outside the ring functions nobody comes to hold a slot. -/
theorem Place.Turns.held {mode : RingMode} {P P' : Place} {l l' : Loc Nat Nat} {k : Cmd}
    {sh sh' pos : Nat} (h : Turns mode P l k P') (hk : k.apply sh l = some (sh', l'))
    (hl : l' = .held pos) : l = .held pos ∧ sh' = sh := by
  subst hl
  cases h with
  | work | reserved | hold | publish =>
    simp only [Cmd.apply, Option.some.injEq, Prod.mk.injEq] at hk
    exact ⟨hk.2, hk.1.symm⟩
  | enter hq he =>
    rename_i f _
    obtain ⟨-, -, rfl⟩ := Cmd.apply_call hk
    cases f with
    | commit pos => cases hq
    | _ => cases he
  | leave | commit =>
    simp only [Cmd.apply, Option.some.injEq, Prod.mk.injEq] at hk
    cases hk.2

/-- `enqueue_pos` never goes back. -/
theorem Sound.enqueue_mono (h : Sound c s) {e : Label} (hst : s.step c e = some s') (i : Nat) :
    (s.ring i).enqueuePos ≤ (s'.ring i).enqueuePos := by
  rcases Pool.step_cases hst with ⟨t, -, rfl⟩ | ⟨n, pc, -, -, rfl⟩ |
    ⟨a, x, spurious, r, l, -, -, -, -, hstep, rfl⟩ | ⟨a, x, m, d, pc, k, sh, l, -, -, -, -, -, rfl⟩
  · exact le_rfl
  · exact le_rfl
  · by_cases hsh : i = (s.thr a).sh
    · subst hsh
      obtain ⟨g, hc, -⟩ := (h.rings (s.thr a).sh).laps
      have hloc : (s.shard (s.thr a).sh).loc a = (s.thr a).loc := if_pos rfl
      simp only [Function.update_self]
      rcases Ring.step_enq hc (hloc ▸ hstep) with he | ⟨he, -⟩
      · exact he.ge
      · exact he.ge.trans' (Nat.le_succ _)
    · simp only [Function.update_of_ne hsh, le_refl]
  · exact le_rfl

/-- A held slot lies before `enqueue_pos`. -/
theorem Sound.held_lt (h : Sound c s) {a : Agent} {pos : Nat} (hl : (s.thr a).loc = .held pos) :
    pos < (s.ring (s.thr a).sh).enqueuePos := by
  obtain ⟨g, hc, -⟩ := (h.rings (s.thr a).sh).laps
  have hx := h.seated.exclusive h.sole (s.thr a).sh
  have hloc : (s.shard (s.thr a).sh).loc a = .held pos := (if_pos rfl).trans hl
  have hown := hc.locs a
  rw [hloc] at hown
  have hg : g (pos % c.capacity.val) = ⟨pos, .reserved a⟩ := hown
  refine Cells.lt_enqueue_of_busy (hc.cell _ (Nat.mod_lt pos c.capacity.pos)) hx (a := a) ?_ ?_ ?_ ?_
  · rw [hloc]
    rfl
  · rw [hloc]
    rfl
  · rw [hg]
  · rw [hg]
    exact nofun

/-- The shard at which a call is inside a ring function is its own. -/
theorem ApiPc.Within.sh {i : Nat} {P : Nat → Prop} {p : ApiPc} (h : p.Within c i P)
    {sh : Nat} {l : Loc Nat Nat} (hfit : p.place.Fits sh l) (hl : l ≠ .idle) : sh = i := by
  cases p with
  | reserve j | waitSpace j =>
    rcases hfit with ⟨hidle, -⟩ | ⟨hsh, -⟩
    · exact absurd hidle hl
    · exact hsh.trans h
  | publish j pos =>
    rcases hfit with ⟨hidle, -⟩ | ⟨hsh, -⟩
    · exact absurd hidle hl
    · exact hsh.trans h.1
  | activate j pos | fill j pos ws | claimed j pos => exact hfit.1.trans h.1
  | _ => exact absurd hfit hl

end Held

/-! ## One call in a run -/

section Tracked

variable {c : Config} {s s' : Pool}

/-- Call `n` is for shard `i`, and whatever position it gets there is at least `lo`. -/
structure Tracked (c : Config) (s : Pool) (n i lo : Nat) : Prop where
  call : ∃ p, (s.thr (.api n)).pc = .api p ∧ p.Within c i (lo ≤ ·)
  slot : ∀ pos, (s.thr (.api n)).loc = .held pos → lo ≤ pos
  room : lo ≤ (s.ring i).enqueuePos

theorem Tracked.step (h : Sound c s) {n i lo : Nat} (ht : Tracked c s n i lo) {e : Label}
    (hst : s.step c e = some s') : Tracked c s' n i lo := by
  have hroom := ht.room.trans (h.enqueue_mono hst i)
  obtain ⟨p, hp, hw⟩ := ht.call
  rcases Pool.step_cases hst with ⟨t, -, rfl⟩ | ⟨n', pc, hidle, hstart, rfl⟩ |
    ⟨a, x, spurious, r, l, -, -, hact, -, hstep, rfl⟩ |
    ⟨a, x, m, d, pc, k, sh, l, -, -, hact, hnext, hk, rfl⟩
  · exact ⟨⟨p, hp, hw⟩, ht.slot, hroom⟩
  · have hne : Agent.api n ≠ .api n' := by
      rintro he
      rw [← he, hp] at hidle
      cases hidle
      exact hw
    exact ⟨⟨p, by simpa only [Function.update_of_ne hne] using hp, hw⟩,
      by simpa only [Function.update_of_ne hne] using ht.slot, hroom⟩
  · by_cases ha : a = .api n
    · subst ha
      refine ⟨⟨p, by simpa only [Function.update_self] using hp, hw⟩, fun pos hl ↦ ?_, hroom⟩
      simp only [Function.update_self] at hl
      subst hl
      have hfit := h.seated.fits (.api n)
      rw [hp] at hfit
      have hsh := hw.sh hfit (by intro hl; rw [hl] at hact; cases hact)
      have hpos := (Ring.step_held hstep).1
      rw [hsh] at hpos
      exact hpos ▸ ht.room
    · have hne : Agent.api n ≠ a := Ne.symm ha
      exact ⟨⟨p, by simpa only [Function.update_of_ne hne] using hp, hw⟩,
        by simpa only [Function.update_of_ne hne] using ht.slot, hroom⟩
  · by_cases ha : a = .api n
    · subst ha
      have hturn := (Pool.next_turns (h.seated.runs (.api n)) hnext).1
      have hheld : ∀ pos, l = .held pos → lo ≤ pos := fun pos hl ↦ ht.slot pos (hturn.held hk hl).1
      simp only [Pool.next, hp, Option.map_eq_some_iff, Prod.mk.injEq] at hnext
      obtain ⟨⟨d', p', k'⟩, hn, rfl, rfl, rfl, rfl⟩ := hnext
      exact ⟨⟨p', by simp only [Function.update_self], hw.next hn ht.slot⟩,
        by simpa only [Function.update_self] using hheld, hroom⟩
    · have hne : Agent.api n ≠ a := Ne.symm ha
      exact ⟨⟨p, by simpa only [Function.update_of_ne hne] using hp, hw⟩,
        by simpa only [Function.update_of_ne hne] using ht.slot, hroom⟩

/-- Nobody who is at home in its own program holds a slot. -/
theorem Seated.idle_loc (hs : Seated c s) {n : Nat} (h : (s.thr (.api n)).pc = .api .idle) :
    (s.thr (.api n)).loc = .idle := by
  have hfit := hs.fits (.api n)
  rw [h] at hfit
  exact hfit

/-- A call that begins now gets no position below `enqueue_pos`. -/
theorem Tracked.start (h : Sound c s) {n i : Nat} {pool : Bool} {f : ApiCall}
    (hst : s.step c (.call n pool f) = some s')
    (hw : ∀ P : Nat → Prop, (f.start c pool).Within c i P) :
    Tracked c s' n i (s.ring i).enqueuePos := by
  rcases Pool.step_cases hst with ⟨t, he, -⟩ | ⟨n', pc, hidle, hstart, rfl⟩ |
    ⟨a, x, spurious, r, l, he, -⟩ | ⟨a, x, m, d, pc, k, sh, l, he, -⟩
  · cases he
  · rcases hstart with ⟨pool', f', he, rfl⟩ | ⟨tls, he, -⟩ | ⟨he, -⟩ <;> cases he
    refine ⟨⟨_, by simp only [Function.update_self], hw _⟩, fun pos hl ↦ ?_, le_rfl⟩
    simp only [Function.update_self, h.seated.idle_loc hidle] at hl
    cases hl
  · cases he
  · cases he

/-- The positions that calls hold or have filled lie before `enqueue_pos`. -/
def Pool.Placed (c : Config) (s : Pool) : Prop :=
  ∀ n p, (s.thr (.api n)).pc = .api p → p = .idle ∨ ∃ i, p.Within c i (· < (s.ring i).enqueuePos)

theorem Pool.Placed.init (now : Nat) : (Pool.init c now).Placed c := by
  intro n p hp
  cases hp
  exact Or.inl rfl

theorem Pool.Placed.step (h : Sound c s) (hs : s.Placed c) {e : Label}
    (hst : s.step c e = some s') : s'.Placed c := by
  have hkeep : ∀ n p, (s.thr (.api n)).pc = .api p →
      p = .idle ∨ ∃ i, p.Within c i (· < (s'.ring i).enqueuePos) := fun n p hp ↦
    (hs n p hp).imp_right fun ⟨i, hw⟩ ↦
      ⟨i, hw.mono fun pos hpos ↦ lt_of_lt_of_le hpos (h.enqueue_mono hst i)⟩
  intro n p hp
  rcases Pool.step_cases hst with ⟨t, -, rfl⟩ | ⟨n', pc, -, hstart, rfl⟩ |
    ⟨a, x, spurious, r, l, -, -, hact, -, hstep, rfl⟩ |
    ⟨a, x, m, d, pc, k, sh, l, -, -, hact, hnext, hk, rfl⟩
  · exact hkeep n p hp
  · by_cases hn : n = n'
    · subst hn
      simp only [Function.update_self] at hp
      rcases hstart with ⟨pool, f, -, rfl⟩ | ⟨tls, -, rfl⟩ | ⟨-, rfl⟩
      · cases hp
        obtain ⟨i, hw⟩ := f.start_within (c := c) pool
        exact Or.inr ⟨i, hw _⟩
      · cases hp
      · cases hp
    · exact hkeep n p (by simpa only [Function.update_of_ne (show Agent.api n ≠ .api n' by
        simpa using hn)] using hp)
  · refine hkeep n p ?_
    by_cases ha : a = .api n
    · subst ha
      simpa only [Function.update_self] using hp
    · simpa only [Function.update_of_ne (Ne.symm ha)] using hp
  · by_cases ha : a = .api n
    · subst ha
      simp only [Function.update_self] at hp
      rcases Pool.next_cases (h.seated.runs (.api n)) hnext with
        ⟨n', q, q', ha, hq, rfl, -, hn⟩ | ⟨n', q, q', -, -, rfl, -⟩ | ⟨n', q, q', -, -, rfl, -⟩ |
        ⟨i, j, q, q', ha, -⟩ | ⟨q, q', ha, -⟩ | ⟨j, q, q', ha, -⟩
      · cases hp
        rcases hkeep n q hq with rfl | ⟨i, hw⟩
        · cases hn
        · refine Or.inr ⟨i, hw.next hn fun pos hl ↦ ?_⟩
          have hfit := h.seated.fits (.api n)
          rw [hq] at hfit
          have hsh := hw.sh hfit (by rw [hl]; nofun)
          exact hsh ▸ h.held_lt hl
      · cases hp
      · cases hp
      · cases ha
      · cases ha
      · cases ha
    · exact hkeep n p (by simpa only [Function.update_of_ne (Ne.symm ha)] using hp)

end Tracked

/-! ## The references of a call -/

/-- `awp_submit` takes both references at the start, the claim protocol one by one. -/
def Job.submits (j : Job) : Bool :=
  match j.kind with
  | .submit _ _ => true
  | .claim | .keyed _ => false

/-- Between `awp_api_enter` and `awp_api_leave`. -/
def ApiPc.holdsRef : ApiPc → Bool
  | .submitActive _ | .submitGate _ _ | .gate _ _ | .reserve _ | .drop _ | .activate _ _
  | .fill _ _ _ | .claimed _ _ | .publish _ _ | .submitted _ _ | .deactivate _ _ _ | .leave _ _ _
  | .readDropped | .readAbandoned _ | .readLeave _ => true
  | .waitSpace j => j.submits
  | _ => false

/-- Between the increment and the decrement of `active_submits`. -/
def ApiPc.holdsActive : ApiPc → Bool
  | .submitGate _ _ | .drop _ | .fill _ _ _ | .claimed _ _ | .publish _ _ | .submitted _ _
  | .deactivate _ _ _ => true
  | .gate j _ | .reserve j | .waitSpace j => j.submits
  | _ => false

def Pc.holdsRef : Pc → Bool
  | .api p => p.holdsRef
  | _ => false

def Pc.holdsActive : Pc → Bool
  | .api p => p.holdsActive
  | _ => false

section Refs

variable {c : Config} {s s' : Pool}

theorem Job.reject_refs (j : Job) (rc : Int) :
    (j.reject rc).holdsRef = true ∧ (j.reject rc).holdsActive = j.submits := by
  rw [Job.reject, Job.submits]
  cases j.kind <;> exact ⟨rfl, rfl⟩

theorem Job.refused_refs (j : Job) (v : Ret Nat Nat) :
    (j.refused v).holdsRef = true ∧ (j.refused v).holdsActive = j.submits := by
  simp only [Job.refused, Job.again]
  cases hk : j.kind <;> cases v <;> dsimp only <;> repeat' split
  all_goals simp only [ApiPc.holdsRef, ApiPc.holdsActive, Job.submits, hk, and_self]

theorem Job.return_refs (j : Job) (rc : Int) (slot : Option (Nat × Nat)) :
    (j.return rc slot).holdsRef = false ∧ (j.return rc slot).holdsActive = false := by
  simp only [Job.return, Job.again]
  cases hk : j.kind <;> dsimp only <;> repeat' split
  all_goals simp only [ApiPc.holdsRef, ApiPc.holdsActive, Job.submits, hk, and_self]

theorem Dat.fill_refs (d : Dat) (now i slot : Nat) (f : Fill) :
    (d.fill now i slot f).apiRefs = d.apiRefs ∧
      (d.fill now i slot f).activeSubmits = d.activeSubmits := by
  cases f <;> exact ⟨rfl, rfl⟩

/-- The locations of the claim protocol that `awp_submit` does not share, and the results: 0 comes
with a slot, and only 0 does. -/
def ApiPc.Proper : ApiPc → Prop
  | .retry j | .claimEnter j | .activate j _ => j.submits = false
  | .drop j => j.submits = true
  | .deactivate _ rc slot | .leave _ rc slot | .done rc slot => rc = 0 ↔ slot.isSome = true
  | _ => True

theorem Job.reject_proper (j : Job) {rc : Int} (h : rc ≠ 0) : (j.reject rc).Proper := by
  rw [Job.reject]
  cases j.kind <;> simpa [ApiPc.Proper] using h

theorem Job.refused_proper (j : Job) (v : Ret Nat Nat) : (j.refused v).Proper := by
  simp only [Job.refused, Job.again]
  cases hk : j.kind <;> cases v <;> dsimp only <;> repeat' split
  all_goals simp [ApiPc.Proper, Job.submits, hk, eagain]

theorem Job.return_proper (j : Job) {rc : Int} {slot : Option (Nat × Nat)}
    (h : rc = 0 ↔ slot.isSome = true) : (j.return rc slot).Proper := by
  simp only [Job.return, Job.again]
  cases hk : j.kind <;> dsimp only <;> repeat' split
  all_goals first | exact h | trivial

theorem ApiPc.Proper.next {m : Ctl} {d d' : Dat} {l : Loc Nat Nat} {x : Choice} {k : Cmd}
    {p p' : ApiPc} (hn : p.next c m d l x = some (d', p', k)) (h : p.Proper) : p'.Proper := by
  have hagain : ∀ j : Job, j.submits = false → (j.again ApiPc.retry).Proper := by
    intro j hj
    rw [Job.again]
    split
    · exact hj
    · trivial
  cases p with
  | idle | done rc slot | read v => cases hn
  | submitEnter a =>
    obtain ⟨rfl, rfl, rfl⟩ := outcome_inj hn
    split
    · trivial
    · rename_i hc
      simpa [ApiPc.Proper] using hc
  | submitGate a g =>
    obtain ⟨rfl, rfl, rfl⟩ := outcome_inj hn
    split
    · cases g <;> trivial
    · simp [ApiPc.Proper, einval]
  | retry j =>
    obtain ⟨rfl, rfl, rfl⟩ := outcome_inj hn
    split
    · exact hagain j h
    · exact h
  | gate j g =>
    obtain ⟨rfl, rfl, rfl⟩ := outcome_inj hn
    split
    · cases g <;> trivial
    · exact j.reject_proper (by decide)
  | reserve j =>
    cases l with
    | idle =>
      obtain ⟨rfl, rfl, rfl⟩ := outcome_inj hn
      trivial
    | held pos =>
      obtain ⟨rfl, rfl, rfl⟩ := outcome_inj hn
      cases hk : j.kind <;> simp [ApiPc.Proper, Job.submits, hk]
    | ret v =>
      obtain ⟨rfl, rfl, rfl⟩ := outcome_inj hn
      exact j.refused_proper v
    | _ => cases hn
  | waitSpace j =>
    cases l with
    | idle =>
      obtain ⟨rfl, rfl, rfl⟩ := outcome_inj hn
      trivial
    | ret v =>
      obtain ⟨rfl, rfl, rfl⟩ := outcome_inj hn
      cases j.kind <;> simp [ApiPc.Proper, Job.submits]
    | _ => cases hn
  | drop j =>
    obtain ⟨rfl, rfl, rfl⟩ := outcome_inj hn
    simp [ApiPc.Proper]
  | fill j pos ws =>
    cases ws with
    | cons f ws =>
      obtain ⟨rfl, rfl, rfl⟩ := outcome_inj hn
      trivial
    | nil =>
      obtain ⟨rfl, rfl, rfl⟩ := outcome_inj hn
      cases j.kind <;> trivial
  | claimed j pos => cases x <;> cases hn <;> trivial
  | publish j pos => cases l <;> cases hn <;> trivial
  | submitted j pos =>
    obtain ⟨rfl, rfl, rfl⟩ := outcome_inj hn
    simp [ApiPc.Proper]
  | leave j rc slot =>
    obtain ⟨rfl, rfl, rfl⟩ := outcome_inj hn
    exact j.return_proper h
  | readEnter r =>
    obtain ⟨rfl, rfl, rfl⟩ := outcome_inj hn
    cases r <;> trivial
  | _ =>
    obtain ⟨rfl, rfl, rfl⟩ := outcome_inj hn
    trivial

theorem ApiCall.start_proper (f : ApiCall) (pool : Bool) : (f.start c pool).Proper := by
  cases f <;> simp only [ApiCall.start] <;> repeat' split
  all_goals simp [ApiPc.Proper, Job.submits, einval, edeadlk]

/-- Every exit of every function gives back what it has taken. -/
theorem ApiPc.next_refs {m : Ctl} {d d' : Dat} {l : Loc Nat Nat} {x : Choice} {k : Cmd}
    {p p' : ApiPc} (hn : p.next c m d l x = some (d', p', k)) (hp : p.Proper) :
    d'.apiRefs = d.apiRefs + p'.holdsRef.toInt - p.holdsRef.toInt ∧
      d'.activeSubmits = d.activeSubmits + p'.holdsActive.toInt - p.holdsActive.toInt := by
  have hkeep : ∀ q : ApiPc, q.holdsRef = p.holdsRef → q.holdsActive = p.holdsActive →
      d.apiRefs = d.apiRefs + q.holdsRef.toInt - p.holdsRef.toInt ∧
        d.activeSubmits = d.activeSubmits + q.holdsActive.toInt - p.holdsActive.toInt := by
    intro q hr ha
    rw [hr, ha]
    omega
  cases p with
  | idle | done rc slot | read v => cases hn
  | submitEnter a =>
    obtain ⟨rfl, rfl, rfl⟩ := outcome_inj hn
    split <;> simp [ApiPc.holdsRef, ApiPc.holdsActive]
  | submitGate a g =>
    obtain ⟨rfl, rfl, rfl⟩ := outcome_inj hn
    split
    · cases g <;> exact hkeep _ rfl rfl
    · exact hkeep _ rfl rfl
  | retry j =>
    have hj : j.submits = false := hp
    obtain ⟨rfl, rfl, rfl⟩ := outcome_inj hn
    refine hkeep _ ?_ ?_ <;> rw [Job.again] <;> repeat' split
    all_goals first | rfl | exact hj
  | claimEnter j =>
    have hj : j.submits = false := hp
    obtain ⟨rfl, rfl, rfl⟩ := outcome_inj hn
    simp [ApiPc.holdsRef, ApiPc.holdsActive, hj]
  | gate j g =>
    obtain ⟨rfl, rfl, rfl⟩ := outcome_inj hn
    split
    · cases g <;> exact hkeep _ rfl rfl
    · exact hkeep _ (j.reject_refs _).1 (j.reject_refs _).2
  | reserve j =>
    cases l with
    | idle =>
      obtain ⟨rfl, rfl, rfl⟩ := outcome_inj hn
      exact hkeep _ rfl rfl
    | held pos =>
      obtain ⟨rfl, rfl, rfl⟩ := outcome_inj hn
      refine hkeep _ ?_ ?_ <;> cases hk : j.kind <;>
        simp only [ApiPc.holdsRef, ApiPc.holdsActive, Job.submits, hk]
    | ret v =>
      obtain ⟨rfl, rfl, rfl⟩ := outcome_inj hn
      exact hkeep _ (j.refused_refs v).1 (j.refused_refs v).2
    | _ => cases hn
  | waitSpace j =>
    cases l with
    | idle =>
      obtain ⟨rfl, rfl, rfl⟩ := outcome_inj hn
      exact hkeep _ rfl rfl
    | ret v =>
      obtain ⟨rfl, rfl, rfl⟩ := outcome_inj hn
      refine hkeep _ ?_ ?_ <;> cases hk : j.kind <;>
        simp only [ApiPc.holdsRef, ApiPc.holdsActive, Job.submits, hk]
    | _ => cases hn
  | fill j pos ws =>
    cases ws with
    | cons f ws =>
      obtain ⟨rfl, rfl, rfl⟩ := outcome_inj hn
      simp [Dat.fill_refs, ApiPc.holdsRef, ApiPc.holdsActive]
    | nil =>
      obtain ⟨rfl, rfl, rfl⟩ := outcome_inj hn
      refine hkeep _ ?_ ?_ <;> cases j.kind <;> rfl
  | claimed j pos => cases x <;> cases hn <;> exact hkeep _ rfl rfl
  | publish j pos => cases l <;> cases hn <;> exact hkeep _ rfl rfl
  | leave j rc slot =>
    obtain ⟨rfl, rfl, rfl⟩ := outcome_inj hn
    rw [(j.return_refs rc slot).1, (j.return_refs rc slot).2]
    simp [ApiPc.holdsRef, ApiPc.holdsActive]
  | readEnter r =>
    obtain ⟨rfl, rfl, rfl⟩ := outcome_inj hn
    cases r <;> simp [ApiPc.holdsRef, ApiPc.holdsActive]
  | _ =>
    obtain ⟨rfl, rfl, rfl⟩ := outcome_inj hn
    simp [ApiPc.holdsRef, ApiPc.holdsActive]

/-- What the counters count, and what the locations of the calls promise. -/
structure Accounts (s : Pool) : Prop where
  proper : ∀ n p, (s.thr (.api n)).pc = .api p → p.Proper
  refs : Counted (fun n ↦ (s.thr (.api n)).pc.holdsRef = true) s.dat.apiRefs
  active : Counted (fun n ↦ (s.thr (.api n)).pc.holdsActive = true) s.dat.activeSubmits

theorem Accounts.init (now : Nat) : Accounts (Pool.init c now) where
  proper n p hp := by
    cases hp
    trivial
  refs := .zero fun n ↦ by simp [Pool.init, Pc.holdsRef, ApiPc.holdsRef]
  active := .zero fun n ↦ by simp [Pool.init, Pc.holdsActive, ApiPc.holdsActive]

/-- Call `n` goes to `pc`; the counters follow. -/
theorem Accounts.move (h : Accounts s) {n : Nat} {t : Thread} {d : Dat} (m : Ctl)
    (hp : ∀ p, t.pc = .api p → p.Proper)
    (hr : d.apiRefs = s.dat.apiRefs + t.pc.holdsRef.toInt - (s.thr (.api n)).pc.holdsRef.toInt)
    (ha : d.activeSubmits = s.dat.activeSubmits + t.pc.holdsActive.toInt -
      (s.thr (.api n)).pc.holdsActive.toInt) :
    Accounts ⟨m, d, s.ring, Function.update s.thr (.api n) t⟩ where
  proper n' p hp' := by
    by_cases hn : n' = n
    · subst hn
      exact hp p (by simpa only [Function.update_self] using hp')
    · exact h.proper n' p (by
        simpa only [Function.update_of_ne (show Agent.api n' ≠ .api n by simpa using hn)] using hp')
  refs := by
    refine h.refs.move (b := n) (fun n' hn ↦ ?_) (by simpa only [Function.update_self] using hr)
    simp only [Function.update_of_ne (show Agent.api n' ≠ .api n by simpa using hn)]
  active := by
    refine h.active.move (b := n) (fun n' hn ↦ ?_) (by simpa only [Function.update_self] using ha)
    simp only [Function.update_of_ne (show Agent.api n' ≠ .api n by simpa using hn)]

/-- The created threads and the ring functions touch no reference. -/
theorem Accounts.congr (h : Accounts s) (hpc : ∀ n, (s'.thr (.api n)).pc = (s.thr (.api n)).pc)
    (hr : s'.dat.apiRefs = s.dat.apiRefs) (ha : s'.dat.activeSubmits = s.dat.activeSubmits) :
    Accounts s' where
  proper n p hp := h.proper n p ((hpc n).symm.trans hp)
  refs := by simpa only [hpc, hr] using h.refs
  active := by simpa only [hpc, ha] using h.active

theorem Dat.notePublish_refs (d : Dat) (sh : Nat) (l : Loc Nat Nat) :
    (d.notePublish c sh l).apiRefs = d.apiRefs ∧
      (d.notePublish c sh l).activeSubmits = d.activeSubmits := by
  cases l <;> exact ⟨rfl, rfl⟩

theorem Accounts.step (hs : Seated c s) (h : Accounts s) {e : Label} (hst : s.step c e = some s') :
    Accounts s' := by
  rcases Pool.step_cases hst with ⟨t, -, rfl⟩ | ⟨n, pc, hidle, hstart, rfl⟩ |
    ⟨a, x, spurious, r, l, -, -, hact, -, hstep, rfl⟩ |
    ⟨a, x, m, d, pc, k, sh, l, -, -, hact, hnext, hk, rfl⟩
  · exact h.congr (fun _ ↦ rfl) rfl rfl
  · have hnone : pc.holdsRef = false ∧ pc.holdsActive = false ∧ ∀ p, pc = .api p → p.Proper := by
      rcases hstart with ⟨pool, f, -, rfl⟩ | ⟨tls, -, rfl⟩ | ⟨-, rfl⟩
      · refine ⟨?_, ?_, fun p hp ↦ Pc.api.inj hp ▸ f.start_proper pool⟩ <;>
          cases f <;> simp only [ApiCall.start] <;> repeat' split
        all_goals rfl
      · exact ⟨rfl, rfl, by simp⟩
      · exact ⟨rfl, rfl, by simp⟩
    refine h.move _ hnone.2.2 ?_ ?_
    · simp only [hnone.1, hidle]
      simp [Pc.holdsRef, ApiPc.holdsRef]
    · simp only [hnone.2.1, hidle]
      simp [Pc.holdsActive, ApiPc.holdsActive]
  · refine h.congr (fun n ↦ ?_) (Dat.notePublish_refs _ _ _).1 (Dat.notePublish_refs _ _ _).2
    by_cases ha : Agent.api n = a
    · rw [← ha]
      simp only [Function.update_self]
    · simp only [Function.update_of_ne ha]
  · rcases Pool.next_cases (hs.runs a) hnext with
      ⟨n, p, p', rfl, hp, rfl, rfl, hn⟩ | ⟨n, p, p', rfl, hp, rfl, rfl, hn⟩ |
      ⟨n, p, p', rfl, hp, rfl, rfl, hn⟩ | ⟨i, j, p, p', rfl, hp, rfl, rfl, hn⟩ |
      ⟨p, p', rfl, hp, rfl, rfl, hn⟩ | ⟨j, p, p', rfl, hp, rfl, rfl, hn⟩
    · have hproper := h.proper n p hp
      obtain ⟨hr, ha⟩ := ApiPc.next_refs hn hproper
      refine h.move _ (fun q hq ↦ Pc.api.inj hq ▸ hproper.next hn) ?_ ?_
      · rw [hp]
        exact hr
      · rw [hp]
        exact ha
    · refine h.move _ (by simp) ?_ ?_ <;> simp [hp, Pc.holdsRef, Pc.holdsActive]
    · refine h.move _ (by simp) ?_ ?_ <;> simp [hp, Pc.holdsRef, Pc.holdsActive]
    all_goals exact h.congr (fun n ↦ by simp only [Function.update_of_ne, ne_eq, reduceCtorEq,
      not_false_eq_true]) rfl rfl

theorem Accounts.run {ok : Pool → Label → Prop} {now : Nat}
    (hrun : Steps (Pool.step c) ok (Pool.init c now) s) : Accounts s :=
  hrun.invariant_under (P := Accounts) (fun _ ht ↦ (Sound.run ht).seated)
    (fun _ _ _ hs _ h _ hst ↦ h.step hs hst) (.init now)

end Refs

end Awp
