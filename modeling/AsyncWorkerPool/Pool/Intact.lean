import AsyncWorkerPool.Pool.Act

/-!
# Intact — what a callback reads

A pop gives its cell back before the frame is handed to `process`, so that a producer one lap ahead
may write the very frame that the callback reads.  Where no step does so, the callback reads what was
published at its position (`Kept`); and no step does so where no position is reserved whose frame the
worker has in hand (`Unheld`).
-/

open Foundation

namespace Awp

/-! ## Frames in hand, and stores into frames -/

def Ret.slot : Ret Nat Nat → Option (Nat × Nat)
  | .popped p (some slot) => some (p, slot)
  | _ => none

/-- The position and the slot that a pop is about to hand out, or has handed out. -/
def Loc.popped : Loc Nat Nat → Option (Nat × Nat)
  | .wake _ v | .ret v => v.slot
  | _ => none

/-- The position and the slot of the frame that a worker's thread has popped and is not done with:
until `process` has returned, or until `on_error` has if `err`. -/
def WorkerPc.reads (err : Bool) (l : Loc Nat Nat) : WorkerPc → Option (Nat × Nat)
  | .pop => l.popped
  | .taken p slot | .call p slot | .process p slot _ => some (p, slot)
  | .countError p slot _ | .countPoolError p slot _ | .callError p slot _ | .onError p slot _ _ =>
    if err then some (p, slot) else none
  | _ => none

def Thread.reads (err : Bool) (t : Thread) : Option (Nat × Nat) :=
  match t.pc with
  | .worker p => p.reads err t.loc
  | _ => none

/-- What worker `i` has in hand. -/
def Pool.reads (err : Bool) (s : Pool) (i : Nat) : Option (Nat × Nat) :=
  (s.thr (.worker i (s.ctl.w i).cur)).reads err

/-- The shard and the slot of the frame that the next access of a call writes. -/
def ApiPc.stores (c : Config) (x : Choice) : ApiPc → Option (Nat × Nat)
  | .fill j pos (_ :: _) => some (j.sh, c.slot pos)
  | .claimed j pos =>
    match x with
    | .write _ => some (j.sh, c.slot pos)
    | _ => none
  | _ => none

def Pool.stores (c : Config) (s : Pool) : Label → Option (Nat × Nat)
  | .step (.api n) x =>
    match (s.thr (.api n)).pc with
    | .api p => p.stores c x
    | _ => none
  | _ => none

/-- The shard and the position that a step reserves. -/
def Pool.reserves (s : Pool) : Label → Option (Nat × Nat)
  | .step a .go =>
    match (s.thr a).loc with
    | .enqCas _ _ pos =>
      if (s.ring (s.thr a).sh).enqueuePos = pos then some ((s.thr a).sh, pos) else none
    | _ => none
  | _ => none

/-- The step writes no frame that its worker has in hand. -/
def Intact (err : Bool) (c : Config) (s : Pool) (e : Label) : Prop :=
  ∀ x ∈ s.stores c e, (s.reads err x.1).map Prod.snd ≠ some x.2

/-- The step reserves no position whose frame the worker has in hand. -/
def Spaced (c : Config) (s : Pool) (e : Label) : Prop :=
  ∀ x ∈ s.reserves e, (s.reads true x.1).map Prod.snd ≠ some (c.slot x.2)

instance (err : Bool) (c : Config) (s : Pool) (e : Label) : Decidable (Intact err c s e) :=
  inferInstanceAs (Decidable (∀ x ∈ s.stores c e, (s.reads err x.1).map Prod.snd ≠ some x.2))

instance (c : Config) (s : Pool) (e : Label) : Decidable (Spaced c s e) :=
  inferInstanceAs (Decidable (∀ x ∈ s.reserves e,
    (s.reads true x.1).map Prod.snd ≠ some (c.slot x.2)))

section Hands

variable {c : Config} {s s' : Pool} {err : Bool} {i k : Nat} {x : Nat × Nat}

theorem WorkerPc.reads_true {l : Loc Nat Nat} {p : WorkerPc} (h : p.reads err l = some x) :
    p.reads true l = some x := by
  cases p with
  | countError | countPoolError | callError | onError =>
    cases err with
    | true => exact h
    | false => cases h
  | _ => exact h

theorem Thread.reads_true {t : Thread} (h : t.reads err = some x) : t.reads true = some x := by
  obtain ⟨pc, sh, l⟩ := t
  cases pc with
  | worker p => exact WorkerPc.reads_true h
  | _ => cases h

theorem Loc.carried_of_popped {l : Loc Nat Nat} (h : l.popped = some x) : l.carried = some x.1 := by
  cases l with
  | wake w v | ret v =>
    cases v with
    | popped p out =>
      cases out with
      | none => cases h
      | some slot =>
        cases h
        rfl
    | _ => cases h
  | _ => cases h

/-- The thread with a frame in hand is the current one. -/
theorem Sound.reads_cur (h : Sound c s) (hx : (s.thr (.worker i k)).reads err = some x) :
    s.reads err i = some x := by
  have hlive : s.crew.stage i k = .live := by
    simp only [Pool.crew]
    rw [Thread.reads] at hx
    cases hpc : (s.thr (.worker i k)).pc with
    | worker p =>
      rw [hpc] at hx
      cases p <;> first | rfl | cases hx
    | _ =>
      rw [hpc] at hx
      cases hx
  rw [Pool.reads, ← h.live_cur hlive]
  exact hx

/-- What a worker's thread has in hand, it had in hand before its step. -/
theorem WorkerPc.next_reads {m m' : Ctl} {l l' : Loc Nat Nat} {y : Choice} {cmd : Cmd}
    {p p' : WorkerPc} (hn : p.next c m i l y = some (m', p', cmd)) (hl : l'.carried = none)
    (hx : p'.reads err l' = some x) : p.reads err l = some x := by
  have hpop : l'.popped ≠ some x := by
    intro hp
    rw [Loc.carried_of_popped hp] at hl
    cases hl
  cases p with
  | depth => cases l <;> simp only [WorkerPc.next] at hn <;> grind [WorkerPc.reads]
  | pop => cases l <;> simp only [WorkerPc.next] at hn <;> grind [WorkerPc.reads, Loc.popped, Ret.slot]
  | process q slot n | onError q slot rc n =>
    cases n <;> cases y <;> simp only [WorkerPc.next, reduceCtorEq] at hn <;> grind [WorkerPc.reads]
  | returned => cases hn
  | _ =>
    obtain ⟨rfl, rfl, rfl⟩ := outcome_inj hn
    grind [WorkerPc.reads]

/-- A store goes into a frame whose slot its party holds. -/
theorem ApiPc.stores_place {p : ApiPc} {y : Choice} (h : p.stores c y = some x) :
    ∃ pos, p.place = .hold x.1 pos ∧ c.slot pos = x.2 := by
  cases p with
  | fill j pos ws =>
    cases ws with
    | nil => cases h
    | cons f ws =>
      cases h
      exact ⟨pos, rfl, rfl⟩
  | claimed j pos =>
    cases y with
    | write w =>
      cases h
      exact ⟨pos, rfl, rfl⟩
    | _ => cases h
  | _ => cases h

theorem Pool.stores_owned (hs : Seated c s) {e : Label} (h : s.stores c e = some x) :
    ∃ a pos, (s.thr a).sh = x.1 ∧ (s.thr a).loc.owns = some pos ∧ c.slot pos = x.2 := by
  cases e with
  | step a y =>
    cases a with
    | api n =>
      simp only [Pool.stores] at h
      cases hpc : (s.thr (.api n)).pc with
      | api p =>
        rw [hpc] at h
        obtain ⟨pos, hplace, hslot⟩ := ApiPc.stores_place h
        have hfit := hs.fits (.api n)
        rw [hpc, Pc.place, hplace] at hfit
        exact ⟨.api n, pos, hfit.1, by rw [hfit.2]; rfl, hslot⟩
      | _ =>
        rw [hpc] at h
        cases h
    | _ => cases h
  | _ => cases h

theorem ApiPc.next_slab {m : Ctl} {d d' : Dat} {l : Loc Nat Nat} {y : Choice} {cmd : Cmd}
    {p p' : ApiPc} (hn : p.next c m d l y = some (d', p', cmd)) {q : Nat}
    (h : p.stores c y ≠ some (i, q)) : d'.slab i q = d.slab i q := by
  have hset : ∀ (sh slot : Nat) (f : Frame → Frame), (sh, slot) ≠ (i, q) →
      (d.setFrame sh slot f).slab i q = d.slab i q := by
    intro sh slot f hne
    rw [Dat.setFrame]
    by_cases hi : i = sh
    · subst hi
      have hq : q ≠ slot := fun hq ↦ hne (by rw [hq])
      simp only [Function.update_self, Function.update_of_ne hq]
    · simp only [Function.update_of_ne hi]
  cases p with
  | fill j pos ws =>
    cases ws with
    | nil =>
      obtain ⟨rfl, rfl, rfl⟩ := outcome_inj hn
      rfl
    | cons f ws =>
      obtain ⟨rfl, rfl, rfl⟩ := outcome_inj hn
      have hne : (j.sh, c.slot pos) ≠ (i, q) := fun he ↦ h (congrArg some he)
      cases f with
      | write w => exact hset _ _ (·.write w) hne
      | nextSeq => exact hset _ _ (·.write (.seq d.seq)) hne
      | stamp => exact hset _ _ (·.write (.submitNs m.clock)) hne
  | claimed j pos =>
    cases y <;> cases hn
    · exact hset _ _ _ fun he ↦ h (congrArg some he)
    · rfl
  | reserve j | waitSpace j | publish j pos => cases l <;> cases hn <;> rfl
  | idle | done rc slot | read v => cases hn
  | _ =>
    obtain ⟨rfl, rfl, rfl⟩ := outcome_inj hn
    rfl

theorem Dat.notePublish_slab (d : Dat) (sh : Nat) (l : Loc Nat Nat) :
    (d.notePublish c sh l).slab = d.slab := by
  cases l <;> rfl

/-- What an access notes as published is what the slot holds. -/
theorem Dat.notePublish_cases (d : Dat) (sh : Nat) (l : Loc Nat Nat) (i p : Nat) :
    (d.notePublish c sh l).published i p = d.published i p ∨
      (d.notePublish c sh l).published i p = some (d.slab i (c.slot p)) := by
  cases l with
  | pubSeq sp f pos =>
    simp only [Dat.notePublish]
    by_cases hi : i = sh
    · subst hi
      by_cases hp : p = pos
      · subst hp
        exact Or.inr (by simp only [Function.update_self])
      · exact Or.inl (by simp only [Function.update_self, Function.update_of_ne hp])
    · exact Or.inl (by simp only [Function.update_of_ne hi])
  | _ => exact Or.inl rfl

/-- A step writes one frame at most, and notes as published what the slot holds. -/
theorem Pool.step_slab (hs : Seated c s) {e : Label} (hst : s.step c e = some s') {q : Nat}
    (h : s.stores c e ≠ some (i, q)) : s'.dat.slab i q = s.dat.slab i q := by
  cases Pool.step_act hs hst with
  | api n y hp hn hk =>
    simp only [Pool.stores, hp] at h
    exact ApiPc.next_slab hn h
  | access a y spurious r l hact hstep =>
    exact congrFun (congrFun (Dat.notePublish_slab s.dat (s.thr a).sh (s.thr a).loc) i) q
  | _ => rfl

end Hands

/-! ## Slots -/

/-- The slot and the position that a publication under way goes with. -/
def Loc.puts : Loc Nat Nat → Option (Nat × Nat)
  | .pubData _ f pos | .pubSeq _ f pos => some (f, pos)
  | _ => none

/-- A position goes with its own slot everywhere. -/
structure Slotted (c : Config) (s : Pool) : Prop where
  pushes : ∀ i p f, (p, f) ∈ (s.ring i).pushes → f = c.slot p
  puts : ∀ a f pos, (s.thr a).loc.puts = some (f, pos) → f = c.slot pos
  reads : ∀ i k x, (s.thr (.worker i k)).reads true = some x → x.2 = c.slot x.1

section Slotted

variable {c : Config} {s s' : Pool}

theorem Slotted.init (now : Nat) : Slotted c (Pool.init c now) where
  pushes i p f h := by cases h
  puts a f pos h := by cases a <;> cases h
  reads i k x h := by cases h

/-- A pop hands out the slot of its position. -/
theorem Sound.popped_slot (h : Sound c s) (hpush : ∀ i p f, (p, f) ∈ (s.ring i).pushes → f = c.slot p)
    {a : Agent} {x : Nat × Nat} (hx : (s.thr a).loc.popped = some x) : x.2 = c.slot x.1 := by
  have hlin := (h.rings (s.thr a).sh).linearized
  have hans : ((s.shard (s.thr a).sh).loc a).answer = some (x.1, some x.2) := by
    rw [show (s.shard (s.thr a).sh).loc a = (s.thr a).loc from if_pos rfl]
    generalize (s.thr a).loc = l at hx
    cases l with
    | wake w v | ret v =>
      cases v with
      | popped p out =>
        cases out with
        | none => cases hx
        | some slot =>
          cases hx
          rfl
      | _ => cases hx
    | _ => cases hx
  obtain ⟨f, hf, hmem⟩ := hlin.popped _ _ (hlin.returned a _ hans)
  cases hf
  exact hpush _ _ _ hmem

/-- An access to a ring publishes what its location says, and begins no publication. -/
theorem RingFn.step_puts {cap : Nat} {a : Agent} {spurious : Bool} {r r' : Ring Nat Agent Nat}
    {l l' : Loc Nat Nat} (f : RingFn) (hl : f.spans l = true)
    (h : r.step cap a spurious l = some (r', l')) :
    (∀ p fr, (p, fr) ∈ r'.pushes → (p, fr) ∈ r.pushes ∨ l.puts = some (fr, p)) ∧
      ∀ x, l'.puts = some x → l.puts = some x := by
  cases l with
  | wake w v => cases w <;> simp only [Ring.step, Ring.wakeStep] at h <;> grind [Loc.puts]
  | wait q w k =>
    cases w <;> simp only [Ring.step, Ring.waitStep] at h <;> cases k <;> grind [Loc.puts, Resume.loc]
  | popTake sc spin pos => cases sc <;> simp only [Ring.step] at h <;> grind [Loc.puts]
  | enqSeq k spin pos | enqCas k spin pos =>
    cases k <;> cases f <;> simp only [RingFn.spans, Bool.false_eq_true] at hl
    simp only [Ring.step, Enq.ready, Enq.full, Enq.ahead, Enq.lost, Enq.reserved] at h
    grind [Loc.puts]
  | pubSeq sp fr pos =>
    cases sp <;> cases f <;> simp only [RingFn.spans, Bool.false_eq_true] at hl
    cases h
    simp [Loc.puts]
    grind
  | _ =>
    simp only [Ring.step, Ring.setCell] at h
    grind [Loc.puts]

/-- A party in a ring is inside one of its functions. -/
theorem Seated.spans (hs : Seated c s) {a : Agent} (hact : (s.thr a).loc.active = true) :
    ∃ f, (s.thr a).pc.place c a = .call (s.thr a).sh f ∧ f.spans (s.thr a).loc = true := by
  have hfit := hs.fits a
  cases hP : (s.thr a).pc.place c a with
  | out =>
    rw [hP] at hfit
    rw [show (s.thr a).loc = .idle from hfit] at hact
    cases hact
  | hold i pos =>
    rw [hP] at hfit
    rw [hfit.2] at hact
    cases hact
  | call i f =>
    rw [hP] at hfit
    rcases hfit with ⟨hidle, -⟩ | ⟨hsh, hspan⟩
    · rw [hidle] at hact
      cases hact
    · exact ⟨f, by rw [hsh], hspan⟩

/-- Outside the ring functions a step begins a publication only where one is called for. -/
theorem Place.Turns.puts {mode : RingMode} {P P' : Place} {l l' : Loc Nat Nat} {k : Cmd}
    {sh sh' f pos : Nat} (h : Turns mode P l k P') (hP : P.Fits sh l)
    (hk : k.apply sh l = some (sh', l')) (hx : l'.puts = some (f, pos)) :
    k = .commit f ∧ P = .call sh (.commit pos) := by
  cases h with
  | work hq =>
    simp only [Cmd.apply, Option.some.injEq, Prod.mk.injEq] at hk
    rw [← hk.2, show l = .idle from hP] at hx
    cases hx
  | enter hq he =>
    rename_i fn _
    obtain ⟨-, -, rfl⟩ := Cmd.apply_call hk
    subst he
    cases fn with
    | commit pos => cases hq
    | _ => cases hx
  | hold | publish =>
    simp only [Cmd.apply, Option.some.injEq, Prod.mk.injEq] at hk
    rw [← hk.2, hP.2] at hx
    cases hx
  | leave | reserved =>
    simp only [Cmd.apply, Option.some.injEq, Prod.mk.injEq] at hk
    rw [← hk.2] at hx
    cases hx
  | commit =>
    simp only [Cmd.apply, Option.some.injEq, Prod.mk.injEq] at hk
    rw [← hk.2] at hx
    cases hx
    obtain ⟨hidle, -⟩ | ⟨rfl, hspan⟩ := hP
    · cases hidle
    · simp only [RingFn.spans, decide_eq_true_eq] at hspan
      exact ⟨rfl, by rw [hspan]⟩

theorem ApiPc.next_commit {m : Ctl} {d d' : Dat} {l : Loc Nat Nat} {y : Choice} {p p' : ApiPc}
    {f sh pos : Nat} (hn : p.next c m d l y = some (d', p', .commit f))
    (hp : p.place = .call sh (.commit pos)) : f = c.slot pos := by
  cases p with
  | publish j q =>
    cases hp
    cases l <;> cases hn
    rfl
  | _ => cases hp

/-- Only the calls of producers publish. -/
theorem Pc.place_commit {a : Agent} {pc : Pc} {i pos : Nat}
    (h : pc.place c a = .call i (.commit pos)) : ∃ p, pc = .api p ∧ p.place = .call i (.commit pos) := by
  cases pc with
  | api p => exact ⟨p, rfl, h⟩
  | shut p => cases p <;> simp only [Pc.place, ShutPc.place, reduceCtorEq] at h <;> grind
  | destroy p =>
    cases p with
    | shut p => cases p <;> simp only [Pc.place, DestroyPc.place, ShutPc.place, reduceCtorEq] at h <;> grind
    | _ => cases h
  | worker p =>
    cases a with
    | worker j k => cases p <;> cases h
    | _ => cases h
  | sup p => cases p <;> cases h
  | helper p => cases h

/-- A step outside the ring functions begins a publication with the slot of its position only. -/
theorem Pool.next_puts (hs : Seated c s) {a : Agent} {y : Choice} {m : Ctl} {d : Dat} {pc : Pc}
    {k : Cmd} {sh : Nat} {l : Loc Nat Nat} (hnext : s.next c a y = some (m, d, pc, k))
    (hk : k.apply (s.thr a).sh (s.thr a).loc = some (sh, l)) {f pos : Nat}
    (hx : l.puts = some (f, pos)) : f = c.slot pos := by
  obtain ⟨rfl, hplace⟩ := (Pool.next_turns (hs.runs a) hnext).1.puts (hs.fits a) hk hx
  obtain ⟨p, hp, hplace⟩ := Pc.place_commit hplace
  simp only [Pool.next, hp, Option.map_eq_some_iff, Prod.mk.injEq] at hnext
  obtain ⟨⟨d', p', k'⟩, hn, -, -, -, rfl⟩ := hnext
  exact ApiPc.next_commit hn hplace

/-- What a worker's thread has in hand after a step outside the ring functions it had before. -/
theorem Pool.next_reads (hs : Seated c s) {err : Bool} {i j : Nat} {y : Choice} {m : Ctl} {d : Dat}
    {pc : Pc} {k : Cmd} {sh : Nat} {l : Loc Nat Nat} {x : Nat × Nat}
    (hnext : s.next c (.worker i j) y = some (m, d, pc, k))
    (hk : k.apply (s.thr (.worker i j)).sh (s.thr (.worker i j)).loc = some (sh, l))
    (hx : Thread.reads err ⟨pc, sh, l⟩ = some x) : (s.thr (.worker i j)).reads err = some x := by
  have hcar := (Pool.next_turns (hs.runs _) hnext).1.carried_none (hs.fits _) hk
  rcases Pool.next_cases (hs.runs _) hnext with ⟨n, p, p', ha, -⟩ | ⟨n, p, p', ha, -⟩ |
    ⟨n, p, p', ha, -⟩ | ⟨i', j', p, p', ha, hp, rfl, rfl, hn⟩ | ⟨p, p', ha, -⟩ | ⟨n, p, p', ha, -⟩ <;>
    cases ha
  rw [Thread.reads, hp]
  exact WorkerPc.next_reads hn hcar hx

/-- A pop hands out what it has just given its cell back for. -/
theorem Ring.step_popped {cap : Nat} {a : Agent} {spurious : Bool} {r r' : Ring Nat Agent Nat}
    {l l' : Loc Nat Nat} {x : Nat × Nat} (h : r.step cap a spurious l = some (r', l'))
    (hx : l'.popped = some x) : l.popped = some x ∨ ∃ sc, l = .popStore sc x.1 (some x.2) := by
  cases l with
  | wake w v =>
    left
    cases w <;> simp only [Ring.step, Ring.wakeStep] at h <;> grind [Loc.popped]
  | wait q w k =>
    cases w <;> simp only [Ring.step, Ring.waitStep] at h <;> cases k <;>
      grind [Loc.popped, Ret.slot, Resume.loc]
  | popTake sc spin pos => cases sc <;> simp only [Ring.step] at h <;> grind [Loc.popped]
  | enqSeq k spin pos | enqCas k spin pos =>
    simp only [Ring.step, Enq.ready, Enq.full, Enq.ahead, Enq.lost, Enq.reserved] at h
    cases k <;> grind [Loc.popped, Ret.slot]
  | popStore sc pos out =>
    cases h
    cases out with
    | none => cases hx
    | some slot =>
      cases hx
      exact Or.inr ⟨sc, rfl⟩
  | _ =>
    simp only [Ring.step, Ring.setCell] at h
    grind [Loc.popped, Ret.slot]

/-- What a worker's thread has in hand after an access in its ring it had before, or the access has
given the cell back. -/
theorem Pool.access_reads (hs : Seated c s) {err : Bool} {i k : Nat} {spurious : Bool}
    {r : Ring Nat Agent Nat} {l : Loc Nat Nat} {x : Nat × Nat}
    (hact : (s.thr (.worker i k)).loc.active = true)
    (hstep : (s.ring (s.thr (.worker i k)).sh).step c.capacity.val (.worker i k) spurious
      (s.thr (.worker i k)).loc = some (r, l))
    (hx : Thread.reads err { s.thr (.worker i k) with loc := l } = some x) :
    (s.thr (.worker i k)).reads err = some x ∨ ((s.thr (.worker i k)).sh = i ∧
      l.popped = some x ∧ ∃ sc, (s.thr (.worker i k)).loc = .popStore sc x.1 (some x.2)) := by
  obtain ⟨f, hplace, -⟩ := hs.spans hact
  rw [Thread.reads] at hx ⊢
  cases hpc : (s.thr (.worker i k)).pc with
  | worker p =>
    simp only [hpc] at hx hplace ⊢
    cases p with
    | pop =>
      have hsh : i = (s.thr (.worker i k)).sh := by
        simp only [Pc.place, WorkerPc.place, Place.call.injEq] at hplace
        exact hplace.1
      exact (Ring.step_popped hstep hx).imp id fun hsc ↦ ⟨hsh.symm, hx, hsc⟩
    | depth => cases hx
    | _ => cases hplace
  | _ =>
    simp only [hpc] at hx
    cases hx

theorem Slotted.step (h : Sound c s) (hc : Slotted c s) {e : Label} (hst : s.step c e = some s') :
    Slotted c s' := by
  rcases Pool.step_cases hst with ⟨t, -, rfl⟩ | ⟨n, pc, hidle, -, rfl⟩ |
    ⟨a, y, spurious, r, l, -, -, hact, -, hstep, rfl⟩ |
    ⟨a, y, m, d, pc, k, sh, l, -, -, -, hnext, hk, rfl⟩
  · exact ⟨hc.pushes, hc.puts, hc.reads⟩
  · refine ⟨hc.pushes, fun a f pos hx ↦ ?_, fun i k x hx ↦ ?_⟩
    · refine hc.puts a f pos ?_
      by_cases ha : a = .api n
      · subst ha
        simpa only [Function.update_self] using hx
      · simpa only [Function.update_of_ne ha] using hx
    · exact hc.reads i k x (by simpa using hx)
  · obtain ⟨fn, -, hspan⟩ := h.seated.spans hact
    obtain ⟨hpush, hput⟩ := fn.step_puts hspan hstep
    have hputs : ∀ b f pos, (Function.update s.thr a { s.thr a with loc := l } b).loc.puts =
        some (f, pos) → f = c.slot pos := by
      intro b f pos hx
      by_cases hb : b = a
      · subst hb
        rw [Function.update_self] at hx
        exact hc.puts b f pos (hput _ hx)
      · rw [Function.update_of_ne hb] at hx
        exact hc.puts b f pos hx
    have hpushes : ∀ i p f, (p, f) ∈ (Function.update s.ring (s.thr a).sh r i).pushes →
        f = c.slot p := by
      intro i p f hf
      by_cases hi : i = (s.thr a).sh
      · subst hi
        rw [Function.update_self] at hf
        rcases hpush p f hf with hold | hnew
        · exact hc.pushes _ p f hold
        · exact hc.puts a f p hnew
      · rw [Function.update_of_ne hi] at hf
        exact hc.pushes i p f hf
    refine ⟨hpushes, hputs, fun i k x hx ↦ ?_⟩
    · by_cases hb : .worker i k = a
      · subst hb
        simp only [Function.update_self] at hx
        rcases Pool.access_reads h.seated hact hstep hx with hold | ⟨-, hpop, -⟩
        · exact hc.reads i k x hold
        · exact (h.step hst).popped_slot hpushes (a := .worker i k) (by simpa using hpop)
      · exact hc.reads i k x (by simpa only [Function.update_of_ne hb] using hx)
  · refine ⟨hc.pushes, fun b f pos hx ↦ ?_, fun i j x hx ↦ ?_⟩
    · by_cases hb : b = a
      · subst hb
        simp only [Function.update_self] at hx
        exact Pool.next_puts h.seated hnext hk hx
      · exact hc.puts b f pos (by simpa only [Function.update_of_ne hb] using hx)
    · by_cases hb : .worker i j = a
      · subst hb
        simp only [Function.update_self] at hx
        exact hc.reads i j x (Pool.next_reads h.seated hnext hk hx)
      · exact hc.reads i j x (by simpa only [Function.update_of_ne hb] using hx)

theorem Slotted.run {ok : Pool → Label → Prop} {now : Nat}
    (hrun : Steps (Pool.step c) ok (Pool.init c now) s) : Slotted c s :=
  hrun.invariant_under (P := Slotted c) (fun _ ht ↦ Sound.run ht)
    (fun _ _ _ hs _ h _ hst ↦ h.step hs hst) (.init now)

end Slotted

/-! ## What is published stays in its slot -/

/-- A frame that lies in its ring, or that the worker has in hand, holds what was published. -/
structure Kept (err : Bool) (c : Config) (s : Pool) : Prop where
  ring : ∀ i p, ((s.ring i).cells (c.slot p)).sequence = p + 1 →
    s.dat.published i p = some (s.dat.slab i (c.slot p))
  hand : ∀ i k x, (s.thr (.worker i k)).reads err = some x →
    s.dat.published i x.1 = some (s.dat.slab i x.2)

section Kept

variable {c : Config} {s s' : Pool} {err : Bool}

/-- Neighbouring positions have different slots. -/
theorem Config.slot_succ_ne (c : Config) (p : Nat) : c.slot (p + 1) ≠ c.slot p := by
  intro h
  simp only [Config.slot, slot_nat] at h
  have hlap := mod_lap h.symm (Nat.lt_succ_self p)
  have htwo := c.capacity.two_le
  omega

theorem Kept.init (now : Nat) : Kept err c (Pool.init c now) where
  ring i p h := by
    have hle : c.slot p ≤ p := by
      rw [Config.slot, slot_nat]
      exact Nat.mod_le p c.capacity.val
    have hseq : c.slot p = p + 1 := by simpa [Pool.init, Ring.init] using h
    omega
  hand i k x h := by cases h

/-- What one access does to a sequence number: a publication and the end of a pop move it. -/
theorem Ring.step_seq {cap : Capacity} {a : Agent} {spurious : Bool} {r r' : Ring Nat Agent Nat}
    {l l' : Loc Nat Nat} (h : r.step cap.val a spurious l = some (r', l')) (q : Nat) :
    (r'.cells q).sequence = (r.cells q).sequence ∨
      (∃ sp f pos, l = .pubSeq sp f pos ∧ (r'.cells q).sequence = pos + 1) ∨
      ∃ sc pos out, l = .popStore sc pos out ∧ q = pos % cap.val ∧
        (r'.cells q).sequence = pos + cap.val := by
  have hset : ∀ (r₀ : Ring Nat Agent Nat) pos x d, r₀.cells = r.cells →
      ((r₀.setCell cap.val pos ⟨x, d⟩).cells q).sequence = (r.cells q).sequence ∨
        (q = pos % cap.val ∧ ((r₀.setCell cap.val pos ⟨x, d⟩).cells q).sequence = x) := by
    intro r₀ pos x d hr
    simp only [Ring.setCell, slot_nat, hr]
    by_cases hq : q = pos % cap.val
    · subst hq
      exact Or.inr ⟨rfl, by rw [Function.update_self]⟩
    · exact Or.inl (by rw [Function.update_of_ne hq])
  have hkeep : r'.cells = r.cells → (r'.cells q).sequence = (r.cells q).sequence := fun hr ↦ by rw [hr]
  cases l with
  | wake w v =>
    refine Or.inl (hkeep ?_)
    cases w <;> simp only [Ring.step, Ring.wakeStep] at h <;> grind
  | wait q w k =>
    refine Or.inl (hkeep ?_)
    cases w <;> simp only [Ring.step, Ring.waitStep] at h <;> grind
  | popTake sc spin pos =>
    refine Or.inl (hkeep ?_)
    cases sc <;> simp only [Ring.step] at h <;> grind
  | pubData sp f pos | popClear sc pos out =>
    cases h
    rcases hset r pos (r.cell cap.val pos).sequence _ rfl with hq | ⟨rfl, hq⟩
    · exact Or.inl hq
    · exact Or.inl (hq.trans (by rw [Ring.cell, slot_nat]))
  | pubSeq sp f pos =>
    cases h
    rcases hset r pos (pos + 1) (r.cell cap.val pos).data rfl with hq | ⟨-, hq⟩
    · exact Or.inl hq
    · exact Or.inr (Or.inl ⟨sp, f, pos, rfl, hq⟩)
  | popStore sc pos out =>
    cases h
    rcases hset r pos (pos + cap.val) (r.cell cap.val pos).data rfl with hq | ⟨hslot, hq⟩
    · exact Or.inl hq
    · exact Or.inr (Or.inr ⟨sc, pos, out, rfl, hslot, hq⟩)
  | _ =>
    refine Or.inl (hkeep ?_)
    simp only [Ring.step] at h
    grind

/-- A slot that somebody holds is not that of a published frame in the ring. -/
theorem Sound.owned_unpublished (h : Sound c s) {a : Agent} {pos p : Nat}
    (hl : (s.thr a).loc.owns = some pos)
    (hp : ((s.ring (s.thr a).sh).cells (c.slot p)).sequence = p + 1) : c.slot pos ≠ c.slot p := by
  obtain ⟨g, hc, -⟩ := (h.rings (s.thr a).sh).laps
  intro heq
  have hlap : g (pos % c.capacity.val) = ⟨pos, .reserved a⟩ := by
    have hloc := hc.locs a
    rw [show (s.shard (s.thr a).sh).loc a = (s.thr a).loc from if_pos rfl] at hloc
    cases hl' : (s.thr a).loc <;> rw [hl'] at hl hloc <;> cases hl
    · exact hloc
    · exact hloc.1
    · exact hloc.1
  simp only [Config.slot, slot_nat] at heq hp
  have hpub := ((hc.cellAt p).seq_eq_succ rfl hp).2
  rw [← heq, hlap] at hpub
  cases hpub

/-- A frame that is about to be handed out is still the published one of its cell. -/
theorem Sound.taken_sequence (h : Sound c s) {a : Agent} {sc : Bool} {p slot : Nat}
    (hl : (s.thr a).loc = .popStore sc p (some slot)) :
    ((s.ring (s.thr a).sh).cells (c.slot p)).sequence = p + 1 := by
  obtain ⟨g, hc, -⟩ := (h.rings (s.thr a).sh).laps
  have hloc := hc.locs a
  rw [show (s.shard (s.thr a).sh).loc a = (s.thr a).loc from if_pos rfl, hl] at hloc
  obtain ⟨f, hg, -⟩ := hloc
  have hseq := (hc.cellAt p).seq
  rw [hg] at hseq
  rw [Config.slot, slot_nat]
  exact hseq

theorem Kept.step (h : Sound c s) (hs : Slotted c s') (hk : Kept err c s) {e : Label}
    (he : Intact err c s e) (hst : s.step c e = some s') : Kept err c s' := by
  have hslab : ∀ i q, s.stores c e ≠ some (i, q) → s'.dat.slab i q = s.dat.slab i q :=
    fun i q hne ↦ Pool.step_slab h.seated hst hne
  -- the step writes none of these frames
  have hring : ∀ i p, ((s.ring i).cells (c.slot p)).sequence = p + 1 →
      s'.dat.slab i (c.slot p) = s.dat.slab i (c.slot p) := by
    intro i p hp
    refine hslab i _ fun hstore ↦ ?_
    obtain ⟨a, pos, rfl, hpos, hslot⟩ := Pool.stores_owned h.seated hstore
    exact h.owned_unpublished hpos hp hslot
  have hhand : ∀ i k x, (s.thr (.worker i k)).reads err = some x →
      s'.dat.slab i x.2 = s.dat.slab i x.2 := by
    intro i k x hx
    refine hslab i _ fun hstore ↦ he _ hstore ?_
    rw [h.reads_cur hx]
    rfl
  rcases Pool.step_cases hst with ⟨t, -, rfl⟩ | ⟨n, pc, hidle, -, rfl⟩ |
    ⟨a, y, spurious, r, l, -, -, hact, -, hstep, rfl⟩ |
    ⟨a, y, m, d, pc, k, sh, l, -, -, -, hnext, hcmd, rfl⟩
  · exact ⟨hk.ring, hk.hand⟩
  · exact ⟨hk.ring, fun i k x hx ↦ hk.hand i k x (by simpa using hx)⟩
  · -- an access may publish, but only what the slot holds
    have hpub : ∀ i p, s.dat.published i p = some (s.dat.slab i (c.slot p)) →
        (s.dat.notePublish c (s.thr a).sh (s.thr a).loc).published i p =
          some ((s.dat.notePublish c (s.thr a).sh (s.thr a).loc).slab i (c.slot p)) := by
      intro i p hp
      rw [Dat.notePublish_slab]
      rcases Dat.notePublish_cases (c := c) s.dat (s.thr a).sh (s.thr a).loc i p with hsame | hnew
      · exact hsame.trans hp
      · exact hnew
    refine ⟨fun i p hp ↦ ?_, fun i k x hx ↦ ?_⟩
    · by_cases hi : i = (s.thr a).sh
      · subst hi
        simp only [Function.update_self] at hp
        rcases Ring.step_seq hstep (c.slot p) with hsame | ⟨sp, f, pos, hl, hseq⟩ |
          ⟨sc, pos, out, hl, hslot, hseq⟩
        · exact hpub _ p (hk.ring _ p (hsame ▸ hp))
        · have hpos : pos = p := Nat.succ.inj (hseq.symm.trans hp)
          subst hpos
          simp only [hl, Dat.notePublish, Function.update_self]
        · -- the cell is a lap ahead, not at the next position
          have hnext : pos + c.capacity.val = p + 1 := hseq.symm.trans hp
          refine absurd ?_ (c.slot_succ_ne p)
          rw [hslot, ← hnext, Config.slot, slot_nat, Nat.add_mod_right]
      · exact hpub i p (hk.ring i p (by simpa only [Function.update_of_ne hi] using hp))
    · have hslot := hs.reads i k x (Thread.reads_true hx)
      rw [hslot]
      refine hpub i x.1 ?_
      by_cases hb : .worker i k = a
      · subst hb
        simp only [Function.update_self] at hx
        rcases Pool.access_reads h.seated hact hstep hx with hold | ⟨hsh, -, sc, hl⟩
        · rw [← hslot]
          exact hk.hand i k x hold
        · have hseq := h.taken_sequence hl
          rw [hsh] at hseq
          exact hk.ring i x.1 hseq
      · rw [← hslot]
        exact hk.hand i k x (by simpa only [Function.update_of_ne hb] using hx)
  · have hpub := Pool.next_published hnext
    refine ⟨fun i p hp ↦ ?_, fun i k x hx ↦ ?_⟩
    · rw [hpub, hring i p hp]
      exact hk.ring i p hp
    · have hold : (s.thr (.worker i k)).reads err = some x := by
        by_cases hb : .worker i k = a
        · subst hb
          simp only [Function.update_self] at hx
          exact Pool.next_reads h.seated hnext hcmd hx
        · simpa only [Function.update_of_ne hb] using hx
      rw [hpub, hhand i k x hold]
      exact hk.hand i k x hold

theorem Kept.run {now : Nat} (hrun : Steps (Pool.step c) (Intact err c) (Pool.init c now) s) :
    Kept err c s :=
  hrun.invariant_under (P := Kept err c) (Q := fun s ↦ Sound c s ∧ Slotted c s)
    (fun _ ht ↦ ⟨Sound.run ht, Slotted.run ht⟩)
    (fun _ _ _ hs hs' h he hst ↦ h.step hs.1 hs'.2 he hst) (.init now)

end Kept

/-! ## Nobody holds a slot that is being read -/

/-- No party holds the slot of a frame that a worker has in hand. -/
def Unheld (c : Config) (s : Pool) : Prop :=
  ∀ i k x, (s.thr (.worker i k)).reads true = some x →
    ∀ a pos, (s.thr a).sh = i → (s.thr a).loc.owns = some pos → c.slot pos ≠ x.2

section Unheld

variable {c : Config} {s s' : Pool}

/-- Outside the ring functions nobody comes to hold a slot. -/
theorem Place.Turns.owns {mode : RingMode} {P P' : Place} {l l' : Loc Nat Nat} {k : Cmd}
    {sh sh' pos : Nat} (h : Turns mode P l k P') (hP : P.Fits sh l)
    (hk : k.apply sh l = some (sh', l')) (hl : l'.owns = some pos) :
    l.owns = some pos ∧ sh' = sh := by
  cases h with
  | work | hold | publish | reserved =>
    simp only [Cmd.apply, Option.some.injEq, Prod.mk.injEq] at hk
    rw [hk.2]
    exact ⟨hl, hk.1.symm⟩
  | enter hq he =>
    rename_i f _
    obtain ⟨-, -, rfl⟩ := Cmd.apply_call hk
    subst he
    cases f with
    | commit pos => cases hq
    | _ => cases hl
  | leave =>
    simp only [Cmd.apply, Option.some.injEq, Prod.mk.injEq] at hk
    rw [← hk.2] at hl
    cases hl
  | commit =>
    simp only [Cmd.apply, Option.some.injEq, Prod.mk.injEq] at hk
    rw [← hk.2] at hl
    exact ⟨hl, hk.1.symm⟩

/-- In a ring function a party comes to hold a slot by the compare-exchange that reserves it. -/
theorem RingFn.step_owns {cap : Nat} {a : Agent} {spurious : Bool} {r r' : Ring Nat Agent Nat}
    {l l' : Loc Nat Nat} {pos : Nat} (f : RingFn) (hl : f.spans l = true)
    (h : r.step cap a spurious l = some (r', l')) (hpos : l'.owns = some pos) :
    l.owns = some pos ∨
      (∃ k spin, l = .enqCas k spin pos) ∧ r.enqueuePos = pos ∧ spurious = false := by
  cases l with
  | wake w v => cases w <;> simp only [Ring.step, Ring.wakeStep] at h <;> grind [Loc.owns]
  | wait q w k =>
    cases w <;> simp only [Ring.step, Ring.waitStep] at h <;> cases k <;>
      grind [Loc.owns, Resume.loc]
  | popTake sc spin pos => cases sc <;> simp only [Ring.step] at h <;> grind [Loc.owns]
  | enqSeq k spin pos | enqCas k spin pos =>
    cases k <;> cases f <;> simp only [RingFn.spans, Bool.false_eq_true] at hl
    simp only [Ring.step, Enq.ready, Enq.full, Enq.ahead, Enq.lost, Enq.reserved] at h
    grind [Loc.owns]
  | _ =>
    simp only [Ring.step, Ring.setCell] at h
    grind [Loc.owns]

theorem Unheld.step (h : Sound c s) (hs : Slotted c s') (ha : Unheld c s) {e : Label}
    (he : Spaced c s e) (hst : s.step c e = some s') : Unheld c s' := by
  intro i k x hx b pos hb hpos
  rcases Pool.step_cases hst with ⟨t, -, rfl⟩ | ⟨n, pc, hidle, -, rfl⟩ |
    ⟨a, y, spurious, r, l, rfl, -, hact, hy, hstep, rfl⟩ |
    ⟨a, y, m, d, pc, cmd, sh, l, -, -, -, hnext, hcmd, rfl⟩
  · exact ha i k x hx b pos hb hpos
  · refine ha i k x (by simpa using hx) b pos ?_ ?_ <;> by_cases hn : b = .api n
    · subst hn
      simpa only [Function.update_self] using hb
    · simpa only [Function.update_of_ne hn] using hb
    · subst hn
      simpa only [Function.update_self] using hpos
    · simpa only [Function.update_of_ne hn] using hpos
  · have hslot := hs.reads i k x hx
    have hold : (s.thr (.worker i k)).reads true = some x ∨ (a = .worker i k ∧ (s.thr a).sh = i ∧
        ∃ sc, (s.thr a).loc = .popStore sc x.1 (some x.2)) := by
      by_cases hw : .worker i k = a
      · subst hw
        simp only [Function.update_self] at hx
        exact (Pool.access_reads h.seated hact hstep hx).imp id fun ⟨hsh, _, hsc⟩ ↦ ⟨rfl, hsh, hsc⟩
      · exact Or.inl (by simpa only [Function.update_of_ne hw] using hx)
    have hholds : ((s.thr b).sh = i ∧ (s.thr b).loc.owns = some pos) ∨
        (a = b ∧ s.reserves (.step a y) = some (i, pos) ∧ ∃ q spin, (s.thr a).loc = .enqCas q spin pos) := by
      by_cases hba : b = a
      · subst hba
        simp only [Function.update_self] at hb hpos
        obtain ⟨f, -, hspan⟩ := h.seated.spans hact
        rcases f.step_owns hspan hstep hpos with hpos | ⟨⟨q, spin, hl⟩, henq, rfl⟩
        · exact Or.inl ⟨hb, hpos⟩
        · refine Or.inr ⟨rfl, ?_, q, spin, hl⟩
          cases y <;> cases hy
          rw [hb] at henq
          simp only [Pool.reserves, hl, hb, if_pos henq]
      · simp only [Function.update_of_ne hba] at hb hpos
        exact Or.inl ⟨hb, hpos⟩
    rcases hold with hold | ⟨rfl, hsh, sc, hpop⟩ <;>
      rcases hholds with ⟨hb, hpos⟩ | ⟨rfl, hres, q, spin, hl⟩
    · exact ha i k x hold b pos hb hpos
    · intro heq
      refine he _ hres ?_
      rw [h.reads_cur hold, heq]
      rfl
    · -- the frame has just been popped: its cell was not free for anybody
      have hseq := h.taken_sequence hpop
      rw [hsh, ← hb] at hseq
      rw [hslot]
      exact h.owned_unpublished hpos hseq
    · rw [hpop] at hl
      cases hl
  · have hold : (s.thr (.worker i k)).reads true = some x := by
      by_cases hw : .worker i k = a
      · subst hw
        simp only [Function.update_self] at hx
        exact Pool.next_reads h.seated hnext hcmd hx
      · simpa only [Function.update_of_ne hw] using hx
    refine ha i k x hold b pos ?_ ?_ <;> by_cases hba : b = a
    · subst hba
      simp only [Function.update_self] at hb hpos
      have hturn := (Pool.next_turns (h.seated.runs b) hnext).1.owns (h.seated.fits b) hcmd hpos
      rw [← hturn.2, hb]
    · simpa only [Function.update_of_ne hba] using hb
    · subst hba
      simp only [Function.update_self] at hpos
      exact ((Pool.next_turns (h.seated.runs b) hnext).1.owns (h.seated.fits b) hcmd hpos).1
    · simpa only [Function.update_of_ne hba] using hpos

theorem Unheld.run {now : Nat} (hrun : Steps (Pool.step c) (Spaced c) (Pool.init c now) s) :
    Unheld c s :=
  hrun.invariant_under (P := Unheld c) (Q := fun s ↦ Sound c s ∧ Slotted c s)
    (fun _ ht ↦ ⟨Sound.run ht, Slotted.run ht⟩)
    (fun _ _ _ hs hs' h he hst ↦ h.step hs.1 hs'.2 he hst) fun i k x hx ↦ by cases hx

/-- Nobody writes a slot that nobody holds. -/
theorem Unheld.intact (h : Sound c s) (ha : Unheld c s) (e : Label) : Intact true c s e := by
  rintro ⟨i, sl⟩ hstore hreads
  obtain ⟨a, pos, hsh, hpos, hslot⟩ := Pool.stores_owned h.seated hstore
  obtain ⟨x, hx, rfl⟩ := Option.map_eq_some_iff.mp hreads
  exact ha i _ x hx a pos hsh hpos hslot

/-- **Frame exclusivity.**  In a run that reserves no position whose frame the worker has in hand, a
frame that a worker has popped is written by no step until `process`, and `on_error` if it is
called, have returned; and it holds what it held when its position was published. -/
theorem frame_exclusive {now : Nat} (hrun : Steps (Pool.step c) (Spaced c) (Pool.init c now) s)
    {i k p sl : Nat} (hreads : (s.thr (.worker i k)).reads true = some (p, sl)) :
    (∀ e, s.stores c e ≠ some (i, sl)) ∧
      (∀ e s', s.step c e = some s' → s'.dat.slab i sl = s.dat.slab i sl) ∧
      s.dat.published i p = some (s.dat.slab i sl) := by
  have h := Sound.run hrun
  have ha := Unheld.run hrun
  have hstores : ∀ e, s.stores c e ≠ some (i, sl) := by
    intro e hstore
    refine ha.intact h e _ hstore ?_
    rw [h.reads_cur hreads]
    rfl
  have hkept : Kept true c s := Kept.run (hrun.mono_under (Q := fun t ↦ Sound c t ∧ Unheld c t)
    (fun t ht ↦ ⟨Sound.run ht, Unheld.run ht⟩) fun t e ht _ ↦ ht.2.intact ht.1 e)
  exact ⟨hstores, fun e s' hst ↦ Pool.step_slab h.seated hst (hstores e), hkept.hand i k _ hreads⟩

/-- Two frames go through, one by one, and a third is being written while `process` reads the second. -/
def secondLap : List Label :=
  submits 0 0 ++ submits 1 2 ++ turns (.worker 0 0) 14 ++ [.step (.worker 0 0) (.rc 0)] ++
    turns (.worker 0 0) 13 ++ .call 2 true (.submit false (.bare 4)) :: turns (.api 2) 18

theorem frame_exclusive_secondLap : ∃ s : Pool,
    exec (guarded (Pool.step .small) (Spaced .small)) (Pool.init .small 0) secondLap = some s ∧
    (s.thr (.worker 0 0)).reads true = some (1, 1) ∧
    s.stores .small (.step (.api 2) .go) = some (0, 0) ∧
    s.dat.published 0 1 = some (s.dat.slab 0 1) := by
  have hrun : (exec (guarded (Pool.step .small) (Spaced .small)) (Pool.init .small 0) secondLap).any
      (fun s ↦ decide ((s.thr (.worker 0 0)).reads true = some (1, 1) ∧
        s.stores .small (.step (.api 2) .go) = some (0, 0))) = true := by
    decide +kernel
  obtain ⟨s, hexec, hend⟩ := exec_any hrun
  obtain ⟨hreads, hstores⟩ := of_decide_eq_true hend
  exact ⟨s, hexec, hreads, hstores, (frame_exclusive (exec_guarded_steps hexec) hreads).2.2⟩

/-- While `process` reads the first frame, two more are submitted to a queue of two. -/
def lapAhead : List Label :=
  submits 0 0 ++ turns (.worker 0 0) 14 ++ submits 1 2 ++
    .call 2 true (.submit false (.bare 4)) :: turns (.api 2) 17

/-- The third is written over the first. -/
theorem frame_overwritten : ∃ s s' : Pool,
    exec (Pool.step .small) (Pool.init .small 0) lapAhead = some s ∧
    (s.thr (.worker 0 0)).pc = .worker (.process 0 0 .out) ∧
    s.stores .small (.step (.api 2) .go) = some (0, 0) ∧
    s.step .small (.step (.api 2) .go) = some s' ∧
    (s'.thr (.worker 0 0)).pc = .worker (.process 0 0 .out) ∧
    (s'.dat.published 0 0).map Frame.flags = some 0 ∧ (s'.dat.slab 0 0).flags = 4 := by
  have hrun : (exec (Pool.step .small) (Pool.init .small 0) lapAhead).any (fun s ↦
      decide ((s.thr (.worker 0 0)).pc = .worker (.process 0 0 .out) ∧
        s.stores .small (.step (.api 2) .go) = some (0, 0)) &&
      (s.step .small (.step (.api 2) .go)).any fun s' ↦
        decide ((s'.thr (.worker 0 0)).pc = .worker (.process 0 0 .out) ∧
          (s'.dat.published 0 0).map Frame.flags = some 0 ∧ (s'.dat.slab 0 0).flags = 4)) = true := by
    decide +kernel
  obtain ⟨s, hexec, hend⟩ := exec_any hrun
  rw [Bool.and_eq_true] at hend
  obtain ⟨hpc, hstore⟩ := of_decide_eq_true hend.1
  obtain ⟨s', hst, hend'⟩ := (Option.any_eq_true _ _).mp hend.2
  obtain ⟨hpc', hpub, hslab⟩ := of_decide_eq_true hend'
  exact ⟨s, s', hexec, hpc, hstore, hst, hpc', hpub, hslab⟩

end Unheld

end Awp
