import AsyncWorkerPool.Pool.Stranded
import AsyncWorkerPool.Pool.Serve

/-!
# Quiet — no call is left that could add to a ring

A call that has passed its load of `lifecycle` may still reserve a position and publish there.  Once
no call has, and the pool no longer runs, none will: `enqueue_pos` stays where it is, what lies
before it is published, and a pop that is told that the ring is closed has found it empty.
-/

open Foundation

namespace Awp

/-- Past the load of `lifecycle`, and not turned away or done with the slot. -/
def ApiPc.admitted (l : Loc Nat Nat) : ApiPc → Bool
  | .gate _ g => g ≠ .lifecycle
  | .reserve _ =>
    match l with
    | .ret _ => false
    | _ => true
  | .activate _ _ | .fill _ _ _ | .claimed _ _ | .publish _ _ | .submitted _ _ => true
  | _ => false

def Thread.admitted (t : Thread) : Bool :=
  match t.pc with
  | .api p => p.admitted t.loc
  | _ => false

/-- Past the load of `lifecycle`, and not counted in `active_submits`. -/
def Thread.passing (t : Thread) : Bool := t.admitted && !t.pc.holdsActive

def Pool.Quiet (s : Pool) : Prop := ∀ n, (s.thr (.api n)).admitted = false

section Admitted

variable {c : Config} {m : Ctl} {d d' : Dat} {l l' : Loc Nat Nat} {x : Choice} {k : Cmd} {sh sh' : Nat}
  {p p' : ApiPc}

theorem Job.reject_admitted (j : Job) (rc : Int) : (j.reject rc).admitted l = false := by
  rw [Job.reject]
  cases j.kind <;> rfl

theorem Job.again_admitted (j : Job) {loop : Job → ApiPc} (h : ∀ j, (loop j).admitted l = false) :
    (j.again loop).admitted l = false := by
  rw [Job.again]
  split
  · exact h _
  · rfl

theorem Job.refused_admitted (j : Job) (v : Ret Nat Nat) : (j.refused v).admitted l = false := by
  have hagain : (j.again (ApiPc.gate · .lifecycle)).admitted l = false := j.again_admitted fun _ ↦ rfl
  simp only [Job.refused]
  cases j.kind <;> cases v <;> first | exact hagain | rfl

theorem Job.return_admitted (j : Job) (rc : Int) (slot : Option (Nat × Nat)) :
    (j.return rc slot).admitted l = false := by
  rw [Job.return]
  cases j.kind with
  | submit a ns | claim => rfl
  | keyed a =>
    dsimp only
    split
    · rfl
    · exact j.again_admitted fun _ ↦ rfl

theorem ApiCall.start_admitted (f : ApiCall) (pool : Bool) : (f.start c pool).admitted l = false := by
  cases f <;> simp only [ApiCall.start] <;> repeat' split
  all_goals rfl

/-- A pool that does not run admits nobody. -/
theorem ApiPc.next_admitted (hn : p.next c m d l x = some (d', p', k)) (hlife : m.lifecycle ≠ .running)
    (h : p'.admitted l' = true) : p.admitted l = true := by
  have hno : p'.admitted l' = false → p.admitted l = true := fun hf ↦ by
    rw [hf] at h
    cases h
  cases p with
  | idle | done rc slot | read v => cases hn
  | activate j pos | fill j pos ws | claimed j pos | publish j pos | submitted j pos => rfl
  | gate j g =>
    obtain ⟨rfl, rfl, rfl⟩ := outcome_inj hn
    cases g with
    | lifecycle =>
      refine hno ?_
      rw [Gate.isOpen, decide_eq_false hlife]
      exact j.reject_admitted _
    | quarantined | destroyStarted => rfl
  | reserve j =>
    cases l with
    | idle | held pos => rfl
    | ret v =>
      obtain ⟨rfl, rfl, rfl⟩ := outcome_inj hn
      exact hno (j.refused_admitted v)
    | _ => cases hn
  | waitSpace j =>
    cases l with
    | idle | ret v =>
      obtain ⟨rfl, rfl, rfl⟩ := outcome_inj hn
      refine hno ?_
      first | rfl | (cases j.kind <;> rfl)
    | _ => cases hn
  | submitGate a g =>
    obtain ⟨rfl, rfl, rfl⟩ := outcome_inj hn
    refine hno ?_
    split
    · cases g <;> rfl
    · rfl
  | retry j =>
    obtain ⟨rfl, rfl, rfl⟩ := outcome_inj hn
    refine hno ?_
    split
    · exact j.again_admitted fun _ ↦ rfl
    · rfl
  | leave j rc slot =>
    obtain ⟨rfl, rfl, rfl⟩ := outcome_inj hn
    exact hno (j.return_admitted rc slot)
  | submitEnter a =>
    obtain ⟨rfl, rfl, rfl⟩ := outcome_inj hn
    refine hno ?_
    split <;> rfl
  | readEnter r =>
    obtain ⟨rfl, rfl, rfl⟩ := outcome_inj hn
    refine hno ?_
    cases r <;> rfl
  | _ =>
    obtain ⟨rfl, rfl, rfl⟩ := outcome_inj hn
    exact hno rfl

/-- Nor does a ring function. -/
theorem ApiPc.admitted_active (p : ApiPc) (hl : l.active = true) (h : p.admitted l' = true) :
    p.admitted l = true := by
  cases p with
  | reserve j =>
    cases l with
    | ret v => cases hl
    | _ => rfl
  | _ => exact h

end Admitted

/-! ## Quiet pools -/

section Quiet

variable {c : Config} {s s' : Pool} {i : Nat}

theorem Thread.not_admitted {t : Thread} (h : ∀ p, t.pc ≠ .api p) : t.admitted = false := by
  rw [Thread.admitted]
  cases hpc : t.pc with
  | api p => exact absurd hpc (h p)
  | _ => rfl

theorem Thread.admitted_api {t : Thread} {p : ApiPc} (h : t.pc = .api p) :
    t.admitted = p.admitted t.loc := by
  rw [Thread.admitted, h]

theorem Pool.Quiet.step (h : s.Quiet) (hs : Seated c s) (hlife : s.ctl.lifecycle ≠ .running) {e : Label}
    (hst : s.step c e = some s') : s'.Quiet := by
  intro n
  have hsame : s'.thr (.api n) = s.thr (.api n) → (s'.thr (.api n)).admitted = false := fun heq ↦ by
    rw [heq]
    exact h n
  cases Pool.step_act hs hst with
  | tick => exact h n
  | call n' pool f hidle =>
    by_cases hn : Agent.api n = .api n'
    · rw [hn, Pool.moved_self]
      exact f.start_admitted pool
    · exact hsame (Pool.moved_of_ne hn)
  | shutdown n' tls hidle =>
    by_cases hn : Agent.api n = .api n'
    · rw [hn, Pool.moved_self]
      rfl
    · exact hsame (Pool.moved_of_ne hn)
  | destroyed n' hidle =>
    by_cases hn : Agent.api n = .api n'
    · rw [hn, Pool.moved_self]
      rfl
    · exact hsame (Pool.moved_of_ne hn)
  | access a x spurious r l hact hstep =>
    by_cases hn : Agent.api n = a
    · subst hn
      rw [Pool.accessed_self]
      cases hpc : (s.thr (.api n)).pc with
      | api p =>
        have hold := h n
        rw [Thread.admitted_api hpc] at hold
        refine Bool.eq_false_iff.mpr fun hadm ↦ ?_
        rw [p.admitted_active hact hadm] at hold
        cases hold
      | _ => rfl
    · exact hsame (Pool.accessed_of_ne hn)
  | api n' x hp hn' hk =>
    by_cases hn : Agent.api n = .api n'
    · rw [hn, Pool.moved_self]
      have hold := h n'
      rw [Thread.admitted_api hp] at hold
      refine Bool.eq_false_iff.mpr fun hadm ↦ ?_
      rw [ApiPc.next_admitted hn' hlife hadm] at hold
      cases hold
    · exact hsame (Pool.moved_of_ne hn)
  | shut n' x hw hp hn' hk =>
    by_cases hn : Agent.api n = .api n'
    · rw [hn, Pool.moved_self]
      cases hw <;> rfl
    · exact hsame (Pool.moved_of_ne hn)
  | destroy n' x hp hn' hfrom hto hframe hk =>
    by_cases hn : Agent.api n = .api n'
    · rw [hn, Pool.moved_self]
      rfl
    · exact hsame (Pool.moved_of_ne hn)
  | worker | sup | helper => exact hsame (Pool.moved_of_ne (by simp))

/-- A pool that does not run never will again. -/
theorem Pool.Quiet.run {ok : Pool → Label → Prop} (h : s.Quiet) (hs : Sound c s)
    (hlife : s.ctl.lifecycle ≠ .running) (hrun : Steps (Pool.step c) ok s s') :
    Sound c s' ∧ s'.ctl.lifecycle ≠ .running ∧ s'.Quiet :=
  hrun.invariant (P := fun s ↦ Sound c s ∧ s.ctl.lifecycle ≠ .running ∧ s.Quiet)
    (fun _ _ _ ⟨hs, hlife, h⟩ _ hst ↦ ⟨hs.step hst,
      fun hrun ↦ hlife (Pool.step_running hs.seated hst hrun), h.step hs.seated hlife hst⟩)
    ⟨hs, hlife, h⟩

/-- Only calls reserve. -/
theorem Pc.place_claim {a : Agent} {pc : Pc} (h : pc.place c a = .call i .claim) :
    ∃ j, pc = .api (.reserve j) := by
  cases pc with
  | api p =>
    cases p with
    | reserve j => exact ⟨j, rfl⟩
    | _ => cases h
  | shut p => cases p <;> simp only [Pc.place, ShutPc.place, reduceCtorEq] at h <;> grind
  | destroy p =>
    cases p with
    | shut p => cases p <;> simp only [Pc.place, DestroyPc.place, ShutPc.place, reduceCtorEq] at h <;> grind
    | _ => cases h
  | worker p =>
    cases a with
    | worker j k => cases p <;> cases h
    | _ => cases h
  | sup p => cases p <;> cases h
  | helper p => cases h

/-- A party at the exchange of `enqueue_pos` is a call that has been admitted. -/
theorem Seated.reserving (hs : Seated c s) {a : Agent} {q : Enq Nat} {spin pos : Nat}
    (hl : (s.thr a).loc = .enqCas q spin pos) :
    ∃ n j, a = .api n ∧ (s.thr a).pc = .api (.reserve j) := by
  have hfit := hs.fits a
  have hrun := hs.runs a
  rw [hl] at hfit
  cases hP : (s.thr a).pc.place c a with
  | out =>
    rw [hP] at hfit
    cases hfit
  | hold i pos =>
    rw [hP] at hfit
    cases hfit.2
  | call i f =>
    rw [hP] at hfit
    rcases hfit with ⟨hidle, -⟩ | ⟨-, hsp⟩
    · cases hidle
    · have hf : f = .claim := by
        cases q <;> cases f <;> first | rfl | cases hsp
      subst hf
      obtain ⟨j, hj⟩ := Pc.place_claim hP
      rw [hj] at hrun
      cases a with
      | api n => exact ⟨n, j, rfl, hj⟩
      | _ => cases hrun

theorem Ring.step_enqueue {cap : Nat} {a : Agent} {spurious : Bool} {r r' : Ring Nat Agent Nat}
    {l l' : Loc Nat Nat} (h : r.step cap a spurious l = some (r', l')) :
    r'.enqueuePos = r.enqueuePos ∨ l.enqKind = some true ∨ ∃ q spin pos, l = .enqCas q spin pos := by
  cases l with
  | enqCas q spin pos => exact Or.inr (Or.inr ⟨q, spin, pos, rfl⟩)
  | pubEnq pos => exact Or.inr (Or.inl rfl)
  | wake w v =>
    left
    cases w <;> simp only [Ring.step, Ring.wakeStep] at h <;> grind
  | wait q w k =>
    left
    cases w <;> simp only [Ring.step, Ring.waitStep] at h <;> grind
  | popTake sc spin pos =>
    left
    cases sc <;> simp only [Ring.step] at h <;> grind
  | _ =>
    left
    simp only [Ring.step, Ring.setCell] at h
    grind

/-- Nothing is reserved any more. -/
theorem Pool.Quiet.enqueue_eq (h : s.Quiet) (hs : Seated c s) {e : Label} (hst : s.step c e = some s')
    (i : Nat) : (s'.ring i).enqueuePos = (s.ring i).enqueuePos := by
  rcases Pool.step_ring hst i with hsame | ⟨a, spurious, l, hsh, hstep⟩
  · rw [hsame]
  · rcases Ring.step_enqueue hstep with hsame | hkind | ⟨q, spin, pos, hl⟩
    · exact hsame
    · have hloc : (s.shard i).loc a = (s.thr a).loc := if_pos hsh
      exact absurd (hloc ▸ hkind) (hs.enqKind_ne a i)
    · obtain ⟨n, j, rfl, hpc⟩ := hs.reserving hl
      have hno := h n
      rw [Thread.admitted_api hpc, hl] at hno
      cases hno

/-- What has been reserved is published. -/
theorem Pool.Quiet.published (h : s.Quiet) (hs : Sound c s) {pos : Nat}
    (hlt : pos < (s.ring i).enqueuePos) : ∃ f, (pos, f) ∈ (s.ring i).pushes := by
  by_contra hnone
  obtain ⟨n, p, hp, -, hown⟩ := hs.reserved_by hlt (not_exists.mp hnone)
  have hno := h n
  have hfit := hs.seated.fits (.api n)
  rw [hp] at hfit
  rw [Thread.admitted_api hp] at hno
  cases p with
  | reserve j =>
    cases hl : (s.thr (.api n)).loc with
    | ret v =>
      rw [hl] at hown
      cases hown
    | _ =>
      rw [hl] at hno
      cases hno
  | activate | fill | claimed | publish | submitted => cases hno
  | waitSpace j =>
    rcases hfit with ⟨hidle, -⟩ | ⟨-, hsp⟩
    · rw [hidle] at hown
      cases hown
    · cases hl : (s.thr (.api n)).loc <;> rw [hl] at hown hsp <;> first | cases hsp | cases hown
  | _ =>
    rw [show (s.thr (.api n)).loc = .idle from hfit] at hown
    cases hown

end Quiet

/-! ## Where a pop looks -/

section Aimed

variable {c : Config} {s s' : Pool} {i : Nat}

/-- The position that a pop has read and not taken. -/
def Loc.aimed : Loc Nat Nat → Option Nat
  | .popSeq _ _ pos | .popTake _ _ pos | .popClosed _ _ pos | .popAgain _ _ pos => some pos
  | _ => none

/-- The one who pops looks at `dequeue_pos`. -/
def Pool.Aimed (s : Pool) : Prop :=
  ∀ a pos, (s.thr a).loc.aimed = some pos → (s.ring (s.thr a).sh).dequeuePos = pos

theorem Loc.popKind_of_aimed {l : Loc Nat Nat} {pos : Nat} (h : l.aimed = some pos) :
    ∃ sc, l.popKind = some sc := by
  cases l with
  | popSeq sc | popTake sc | popClosed sc | popAgain sc => exact ⟨sc, rfl⟩
  | _ => cases h

theorem Ring.step_aimed {cap : Nat} {a : Agent} {spurious : Bool} {r r' : Ring Nat Agent Nat}
    {l l' : Loc Nat Nat} {pos : Nat} (h : r.step cap a spurious l = some (r', l'))
    (haim : ∀ pos, l.aimed = some pos → r.dequeuePos = pos) (hl : l'.aimed = some pos) :
    r'.dequeuePos = pos := by
  cases l with
  | wake w v => cases w <;> simp only [Ring.step, Ring.wakeStep] at h <;> grind [Loc.aimed]
  | wait q w k =>
    cases w <;> simp only [Ring.step, Ring.waitStep] at h <;> cases k <;>
      grind [Loc.aimed, Resume.loc]
  | popTake sc spin pos => cases sc <;> simp only [Ring.step] at h <;> grind [Loc.aimed]
  | enqSeq q spin pos | enqCas q spin pos =>
    cases q <;> simp only [Ring.step, Enq.ready, Enq.full, Enq.ahead, Enq.lost, Enq.reserved] at h <;>
      grind [Loc.aimed]
  | _ =>
    simp only [Ring.step, Ring.setCell] at h
    grind [Loc.aimed]

theorem RingFn.entry_aimed (mode : RingMode) (f : RingFn) : (f.entry mode).aimed = none := by
  cases f <;> rfl

/-- Outside the ring functions nobody comes to look at a position. -/
theorem Place.Turns.aimed {mode : RingMode} {P P' : Place} {l l' : Loc Nat Nat} {k : Cmd}
    {sh sh' pos : Nat} (h : Turns mode P l k P') (hk : k.apply sh l = some (sh', l'))
    (hl : l'.aimed = some pos) : l.aimed = some pos ∧ sh' = sh := by
  cases h with
  | work | reserved | hold | publish =>
    simp only [Cmd.apply, Option.some.injEq, Prod.mk.injEq] at hk
    obtain ⟨rfl, rfl⟩ := hk
    exact ⟨hl, rfl⟩
  | enter hq he =>
    obtain ⟨-, -, rfl⟩ := Cmd.apply_call hk
    rw [he, RingFn.entry_aimed] at hl
    cases hl
  | leave | commit =>
    simp only [Cmd.apply, Option.some.injEq, Prod.mk.injEq] at hk
    obtain ⟨-, rfl⟩ := hk
    cases hl

theorem Pool.Aimed.init (now : Nat) : (Pool.init c now).Aimed := by
  intro a pos h
  cases a <;> cases h

theorem Pool.Aimed.step (h : s.Aimed) (hs : Sound c s) {e : Label} (hst : s.step c e = some s') :
    s'.Aimed := by
  intro b pos hb
  rcases Pool.step_cases hst with ⟨t, -, rfl⟩ | ⟨n, pc, -, -, rfl⟩ |
    ⟨a, x, spurious, r, l, -, -, -, -, hstep, rfl⟩ | ⟨a, x, m, d, pc, k, sh, l, -, -, -, hnext, hk, rfl⟩
  · exact h b pos hb
  · by_cases hba : b = .api n
    · subst hba
      simp only [Function.update_self] at hb ⊢
      exact h _ pos hb
    · simp only [Function.update_of_ne hba] at hb ⊢
      exact h b pos hb
  · by_cases hba : b = a
    · subst hba
      simp only [Function.update_self] at hb ⊢
      exact Ring.step_aimed hstep (h b) hb
    · simp only [Function.update_of_ne hba] at hb ⊢
      by_cases hsh : (s.thr b).sh = (s.thr a).sh
      · rw [hsh, Function.update_self]
        have hold := h b pos hb
        rw [hsh] at hold
        rcases Ring.step_dequeue hstep with hsame | ⟨sc, hkind⟩
        · exact hsame.trans hold
        · -- both would be popping
          obtain ⟨sc', hkind'⟩ := Loc.popKind_of_aimed hb
          have hloc : (s.shard (s.thr a).sh).loc a = (s.thr a).loc := if_pos rfl
          have hloc' : (s.shard (s.thr a).sh).loc b = (s.thr b).loc := if_pos hsh
          exact absurd (hs.sole _ b a (hs.seated.pops_of_popKind (hloc' ▸ hkind'))
            (hs.seated.pops_of_popKind (hloc ▸ hkind))) hba
      · rw [Function.update_of_ne hsh]
        exact h b pos hb
  · by_cases hba : b = a
    · subst hba
      simp only [Function.update_self] at hb ⊢
      obtain ⟨hold, rfl⟩ := (Pool.next_turns (hs.seated.runs b) hnext).1.aimed hk hb
      exact h b pos hold
    · simp only [Function.update_of_ne hba] at hb ⊢
      exact h b pos hb

theorem Pool.Aimed.run {ok : Pool → Label → Prop} {now : Nat}
    (hrun : Steps (Pool.step c) ok (Pool.init c now) s) : s.Aimed :=
  hrun.invariant_under (P := Pool.Aimed) (fun _ ht ↦ Sound.run ht)
    (fun _ _ _ hs _ h _ hst ↦ h.step hs hst) (.init now)

end Aimed

/-! ## Empty rings -/

section Empty

variable {c : Config} {s s' : Pool} {i : Nat}

def Pool.Empty (s : Pool) (i : Nat) : Prop := (s.ring i).dequeuePos = (s.ring i).enqueuePos

instance (s : Pool) (i : Nat) : Decidable (s.Empty i) :=
  inferInstanceAs (Decidable ((s.ring i).dequeuePos = (s.ring i).enqueuePos))

theorem Sound.dequeue_le (h : Sound c s) (i : Nat) :
    (s.ring i).dequeuePos ≤ (s.ring i).enqueuePos := by
  obtain ⟨g, hc, -⟩ := (h.rings i).laps
  refine hc.lead.resolve_right ?_
  rintro ⟨-, b, hb⟩
  refine h.seated.enqKind_ne b i ?_
  cases hl : (s.shard i).loc b <;> rw [hl] at hb <;> first | rfl | cases hb

/-- In a quiet pool an empty ring stays empty. -/
theorem Pool.Quiet.empty_step (h : s.Quiet) (hs : Sound c s) {e : Label} (hst : s.step c e = some s')
    (hi : s.Empty i) : s'.Empty i := by
  have henq := h.enqueue_eq hs.seated hst i
  refine le_antisymm ((hs.step hst).dequeue_le i) ?_
  rw [henq, ← hi]
  rcases Pool.step_ring hst i with hsame | ⟨a, spurious, l, hsh, hstep⟩
  · rw [hsame]
  · obtain ⟨g, hc, -⟩ := (hs.rings i).laps
    have hloc : (s.shard i).loc a = (s.thr a).loc := if_pos hsh
    rcases Ring.step_deq hc (hloc ▸ hstep) with he | ⟨he, -⟩
    · exact he.ge
    · exact he.ge.trans' (Nat.le_succ _)

/-- A pop in a quiet pool is told that the ring is closed only when the ring is empty. -/
theorem Pool.Quiet.told (h : s.Quiet) (hs : Sound c s) (haim : s.Aimed) {a : Agent} {sc : Bool}
    {spin pos : Nat} (hl : (s.thr a).loc = .popAgain sc spin pos)
    (hseq : ((s.ring (s.thr a).sh).cell c.capacity.val pos).sequence ≠ pos + 1) :
    s.Empty (s.thr a).sh := by
  have hpos := haim a pos (by rw [hl]; rfl)
  by_contra hne
  have hlt : pos < (s.ring (s.thr a).sh).enqueuePos := by
    have hle := hs.dequeue_le (s.thr a).sh
    rw [Pool.Empty] at hne
    omega
  obtain ⟨f, hf⟩ := h.published hs hlt
  exact hseq (hpos ▸ (hs.due (hpos.symm ▸ hf)).1)

end Empty

end Awp
