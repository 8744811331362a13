import AsyncWorkerPool.Pool.Act

/-!
# Closure — no ring is open once the pool has stopped

The executor closes every ring after it has stored `supervisor_stop`, and only the supervisor opens
one.  A ring that the executor has been at is therefore closed, or the supervisor has reopened it
since and will find at its re-check that it must close it again.
-/

open Foundation

namespace Awp

/-! ## What never goes back -/

/-- At an access that adds 1 to `shutdown_aborts`. -/
def ShutPc.records : ShutPc → Bool
  | .noteAbort _ _ => true
  | _ => false

def SupPc.records : SupPc → Bool
  | .quarAbort _ | .failAbort _ => true
  | _ => false

def Pc.records : Pc → Bool
  | .shut p | .destroy (.shut p) => p.records
  | .sup p => p.records
  | _ => false

def Pool.records (s : Pool) : Label → Bool
  | .step a _ => (s.thr a).pc.records
  | _ => false

/-- Control words that only ever move in one direction, and the count of aborts, which does until it
wraps; `records` tells whether the access adds to it. -/
structure Ctl.Onward (records : Bool) (m m' : Ctl) : Prop where
  stop : m.supervisorStop = true → m'.supervisorStop = true
  quarantined : m.quarantined = true → m'.quarantined = true
  aborts : m'.shutdownAborts = m.shutdownAborts ∨ (m.shutdownAborts = 0 ∧ m'.shutdownAborts = 1) ∨
    (records = true ∧ m'.shutdownAborts = (m.shutdownAborts + 1) % 2 ^ 64)

section Onward

variable {c : Config} {m m' : Ctl} {l : Loc Nat Nat} {x : Choice} {k : Cmd} {b : Bool}

theorem Ctl.Onward.refl (m : Ctl) : m.Onward b m := ⟨id, id, Or.inl rfl⟩

theorem Ctl.markQuarantined_onward (m : Ctl) : m.Onward b m.markQuarantined :=
  ⟨id, fun _ ↦ rfl, Or.inl rfl⟩

theorem Ctl.persistAbort_onward (m : Ctl) : m.Onward b m.persistAbort := by
  refine ⟨id, id, ?_⟩
  simp only [Ctl.persistAbort]
  split <;> omega

theorem Ctl.noteAbort_onward (m : Ctl) : m.Onward true m.noteAbort :=
  ⟨id, id, Or.inr (Or.inr ⟨rfl, rfl⟩)⟩

theorem Nest.next_onward (n : Nest) : m.Onward b (n.next m).1 := by
  cases n with
  | out | markFrames | persistLoad => exact { Ctl.Onward.refl m with }
  | markStore => exact m.markQuarantined_onward
  | persistCas => exact m.persistAbort_onward

theorem WorkerPc.next_onward {i : Nat} {p p' : WorkerPc}
    (hn : p.next c m i l x = some (m', p', k)) : m.Onward false m' := by
  cases p with
  | depth | pop =>
    have hm : m' = m := by
      cases l <;> simp only [WorkerPc.next] at hn <;> grind
    rw [hm]
    exact .refl m
  | process p slot n =>
    by_cases hout : n = .out
    · subst hout
      cases x <;> cases hn <;> exact { Ctl.Onward.refl m with }
    · have hstep : m' = (n.next m).1 := by
        cases n <;> cases x <;> first | exact absurd rfl hout | (cases hn; rfl)
      rw [hstep]
      exact n.next_onward
  | onError p slot rc n =>
    by_cases hout : n = .out
    · subst hout
      cases x <;> cases hn <;> exact { Ctl.Onward.refl m with }
    · have hstep : m' = (n.next m).1 := by
        cases n <;> cases x <;> first | exact absurd rfl hout | (cases hn; rfl)
      rw [hstep]
      exact n.next_onward
  | returned => cases hn
  | _ =>
    obtain ⟨rfl, rfl, rfl⟩ := outcome_inj hn
    exact { Ctl.Onward.refl m with }

theorem SupPc.next_onward {ended : Agent → Bool} {p p' : SupPc}
    (hn : p.next c m ended l x = some (m', p', k)) : m.Onward p.records m' := by
  cases p with
  | stallDepth r last =>
    have hm : m' = m := by
      cases l <;> simp only [SupPc.next] at hn <;> grind
    rw [hm]
    exact .refl m
  | quarClose r | reclose r | postClose r | failClose r | reopen r =>
    rw [(ringCall_cases hn).1]
    exact .refl m
  | join r =>
    cases x with
    | go | rc n =>
      simp only [SupPc.next] at hn
      split at hn <;> cases hn
      exact { Ctl.Onward.refl m with }
    | _ => cases hn
  | create r =>
    cases x with
    | go =>
      obtain ⟨rfl, rfl, rfl⟩ := outcome_inj hn
      exact { Ctl.Onward.refl m with }
    | rc n =>
      simp only [SupPc.next] at hn
      split at hn <;> cases hn
      exact .refl m
    | _ => cases hn
  | exitLock =>
    simp only [SupPc.next] at hn
    split at hn <;> cases hn
    exact { Ctl.Onward.refl m with }
  | quarMark r | joinFailMark r | failMark r =>
    obtain ⟨rfl, rfl, rfl⟩ := outcome_inj hn
    exact m.markQuarantined_onward
  | quarAbort r | failAbort r =>
    obtain ⟨rfl, rfl, rfl⟩ := outcome_inj hn
    exact m.noteAbort_onward
  | failStop r =>
    obtain ⟨rfl, rfl, rfl⟩ := outcome_inj hn
    exact ⟨fun _ ↦ rfl, id, Or.inl rfl⟩
  | returned => cases hn
  | _ =>
    obtain ⟨rfl, rfl, rfl⟩ := outcome_inj hn
    exact { Ctl.Onward.refl m with }

theorem HelperPc.next_onward {ended : Agent → Bool} {j : Nat} {p p' : HelperPc}
    (hn : p.next m ended j x = some (m', p', k)) : m.Onward false m' := by
  rw [HelperPc.next_frame hn]
  exact { Ctl.Onward.refl m with }

theorem ShutPc.next_onward {active : Int} {me : Agent} {p p' : ShutPc}
    (hn : p.next c m active me l x = some (m', p', k)) : m.Onward p.records m' := by
  cases p with
  | timeoutClose e i | closeAll e i | lateClose e i =>
    simp only [ShutPc.next] at hn
    split at hn
    · rw [(closeCall_cases hn).1]
      exact .refl m
    · cases hn
      exact .refl m
  | stopClose e i =>
    rw [(closeCall_cases hn).1]
    exact .refl m
  | waitLock | waitRelock | quiesceLock | lifeLock e last =>
    simp only [ShutPc.next, Option.map_eq_some_iff, Prod.mk.injEq] at hn
    obtain ⟨m₁, hm, rfl, -, -⟩ := hn
    rw [(Ctl.lockLife_eq hm).2]
    exact { Ctl.Onward.refl m with }
  | drainPop e i =>
    have hm : m' = m := by
      cases l <;> simp only [ShutPc.next] at hn <;> grind
    rw [hm]
    exact .refl m
  | joinCreate e t =>
    cases x with
    | go =>
      obtain ⟨rfl, rfl, rfl⟩ := outcome_inj hn
      exact { Ctl.Onward.refl m with }
    | rc n =>
      simp only [ShutPc.next] at hn
      split at hn <;> cases hn
      exact .refl m
    | _ => cases hn
  | cas life | waitLife | waitBlocked ticket | anyQuarantined e i =>
    simp only [ShutPc.next] at hn
    split at hn <;> cases hn <;> exact { Ctl.Onward.refl m with }
  | supStop e =>
    obtain ⟨rfl, rfl, rfl⟩ := outcome_inj hn
    exact ⟨fun _ ↦ rfl, id, Or.inl rfl⟩
  | mark e v =>
    obtain ⟨rfl, rfl, rfl⟩ := outcome_inj hn
    exact m.markQuarantined_onward
  | noteAbort e v =>
    obtain ⟨rfl, rfl, rfl⟩ := outcome_inj hn
    exact m.noteAbort_onward
  | persistCas e =>
    obtain ⟨rfl, rfl, rfl⟩ := outcome_inj hn
    exact m.persistAbort_onward
  | done rc => cases hn
  | _ =>
    obtain ⟨rfl, rfl, rfl⟩ := outcome_inj hn
    exact { Ctl.Onward.refl m with }

theorem DestroyPc.next_onward {d : Dat} {me : Agent} {p p' : DestroyPc}
    (hn : p.next c m d me l x = some (m', p', k)) : m.Onward (Pc.destroy p).records m' := by
  rcases DestroyPc.next_cases hn with ⟨q, q', rfl, -, hq⟩ | -
  · exact ShutPc.next_onward hq
  · cases p with
    | lock | relock =>
      simp only [DestroyPc.next, Option.map_eq_some_iff, Prod.mk.injEq] at hn
      obtain ⟨m₁, hm, rfl, -, -⟩ := hn
      rw [(Ctl.lockLife_eq hm).2]
      exact { Ctl.Onward.refl m with }
    | refsMark | leakMark =>
      obtain ⟨rfl, rfl, rfl⟩ := outcome_inj hn
      exact m.markQuarantined_onward
    | cas | waiters | blocked ticket | ckWorker i | joined i =>
      simp only [DestroyPc.next] at hn
      split at hn <;> cases hn <;> exact { Ctl.Onward.refl m with }
    | shut q =>
      by_cases hq : ∃ rc, q = .done rc
      · obtain ⟨rc, rfl⟩ := hq
        obtain ⟨rfl, rfl, rfl⟩ := outcome_inj hn
        exact .refl m
      · rw [DestroyPc.next_shut (fun rc hrc ↦ hq ⟨rc, hrc⟩), Option.map_eq_some_iff] at hn
        obtain ⟨⟨m₁, q', k₁⟩, hn, he⟩ := hn
        cases he
        exact ShutPc.next_onward hn
    | released | leaked | refused => cases hn
    | _ =>
      obtain ⟨rfl, rfl, rfl⟩ := outcome_inj hn
      exact { Ctl.Onward.refl m with }

/-- Every step of the pool moves them on, if at all. -/
theorem Pool.step_onward {s s' : Pool} (hs : Seated c s) {e : Label} (hst : s.step c e = some s') :
    s.ctl.Onward (s.records e) s'.ctl := by
  cases Pool.step_act hs hst with
  | tick t => exact { Ctl.Onward.refl s.ctl with }
  | call | shutdown | destroyed | access | api => exact .refl s.ctl
  | shut n x hw hp hn hk =>
    rw [Pool.records, hp]
    cases hw <;> exact ShutPc.next_onward hn
  | destroy n x hp hn hfrom hto hframe hk =>
    rw [Pool.records, hp]
    exact DestroyPc.next_onward hn
  | worker i j x hi hj hp hn hk =>
    rw [Pool.records, hp]
    exact WorkerPc.next_onward hn
  | sup x he hp hn hk =>
    rw [Pool.records, hp]
    exact SupPc.next_onward hn
  | helper h x hh hp hn hk =>
    rw [Pool.records, hp]
    exact HelperPc.next_onward hn

end Onward

/-! ## The flag of a ring -/

/-- Past the access that stores the flag. -/
def Loc.past : Loc Nat Nat → Bool
  | .wake _ _ | .ret _ => true
  | _ => false

/-- The ring that the supervisor has reopened and has neither checked to stay open nor closed again;
`past` tells whether it is past the store of the ring function it is in. -/
def SupPc.reopens (past : Bool) : SupPc → Option Nat
  | .reopen r => if past then some r.i else none
  | .stampProgress r | .ask (.reopened r) | .askStop (.reopened r) => some r.i
  | .postClose r => if past then none else some r.i
  | _ => none

def Pool.Reopening (s : Pool) (i : Nat) : Prop :=
  ∃ p, (s.thr .sup).pc = .sup p ∧ p.reopens (s.thr .sup).loc.past = some i

/-- Ring `i` is closed, or about to be closed again. -/
def Pool.Shut (s : Pool) (i : Nat) : Prop := (s.ring i).closed = true ∨ s.Reopening i

section Flag

variable {c : Config} {s s' : Pool} {i : Nat}

theorem Ring.wake_closed {a : Agent} {r r' : Ring Nat Agent Nat} {v : Ret Nat Nat} {w : Wake}
    {l : Loc Nat Nat} (h : r.wakeStep a v w = some (r', l)) :
    r'.closed = r.closed ∧ l.past = true := by
  cases w <;> simp only [Ring.wakeStep] at h
  · cases h
    refine ⟨rfl, ?_⟩
    split <;> rfl
  · split at h <;> cases h
    exact ⟨rfl, rfl⟩
  · cases h
    exact ⟨rfl, rfl⟩
  · cases h
    exact ⟨rfl, rfl⟩

/-- Only the access that stores it changes the flag. -/
theorem Ring.step_flag {cap : Nat} {a : Agent} {spurious : Bool} {r r' : Ring Nat Agent Nat}
    {l l' : Loc Nat Nat} (h : r.step cap a spurious l = some (r', l')) :
    ((∀ v, l ≠ .setClosed v) ∧ r'.closed = r.closed) ∨
      ∃ v, l = .setClosed v ∧ r'.closed = v ∧ l' = .wake .lock (.flag v) := by
  cases l with
  | setClosed v =>
    cases h
    exact Or.inr ⟨v, rfl, rfl, rfl⟩
  | wake w v => exact Or.inl ⟨by simp, (Ring.wake_closed h).1⟩
  | wait q w k =>
    refine Or.inl ⟨by simp, ?_⟩
    cases w <;> simp only [Ring.step, Ring.waitStep] at h <;> grind
  | popTake sc spin pos =>
    refine Or.inl ⟨by simp, ?_⟩
    cases sc <;> simp only [Ring.step] at h <;> grind
  | _ =>
    refine Or.inl ⟨by simp, ?_⟩
    simp only [Ring.step] at h
    grind [Ring.setCell]

theorem Ring.step_past {cap : Nat} {a : Agent} {spurious : Bool} {r r' : Ring Nat Agent Nat}
    {l l' : Loc Nat Nat} (h : r.step cap a spurious l = some (r', l')) (hl : l.past = true) :
    l'.past = true := by
  cases l with
  | wake w v => exact (Ring.wake_closed h).2
  | ret v => cases h
  | _ => cases hl

theorem Seated.flag (hs : Seated c s) {a : Agent} {v : Bool} (hl : (s.thr a).loc = .setClosed v) :
    (s.thr a).pc.place c a = .call (s.thr a).sh (.flag v) := by
  have hfit := hs.fits a
  rw [hl] at hfit
  cases hP : (s.thr a).pc.place c a with
  | out =>
    rw [hP] at hfit
    cases hfit
  | hold i pos =>
    rw [hP] at hfit
    cases hfit.2
  | call i f =>
    rw [hP] at hfit
    rcases hfit with ⟨he, -⟩ | ⟨hsh, hspan⟩
    · cases he
    · cases f <;> simp only [RingFn.spans, decide_eq_true_eq, Bool.false_eq_true] at hspan
      rw [hsh, hspan]

/-- Only the supervisor reopens. -/
theorem Seated.reopens (hs : Seated c s) {a : Agent} (hl : (s.thr a).loc = .setClosed false) :
    a = .sup ∧ ∃ r, (s.thr a).pc = .sup (.reopen r) ∧ r.i = (s.thr a).sh := by
  have hplace := hs.flag hl
  have hrun := hs.runs a
  have hshut : ∀ p : ShutPc, p.place c ≠ .call (s.thr a).sh (.flag false) := by
    intro p hp
    cases p <;> simp only [ShutPc.place, reduceCtorEq] at hp <;> grind
  cases hpc : (s.thr a).pc with
  | api p =>
    rw [hpc] at hplace
    cases p <;> simp [Pc.place, ApiPc.place] at hplace
  | shut p =>
    rw [hpc] at hplace
    exact absurd hplace (hshut p)
  | destroy p =>
    rw [hpc] at hplace
    cases p with
    | shut p => exact absurd hplace (hshut p)
    | _ => simp [Pc.place, DestroyPc.place] at hplace
  | worker p =>
    rw [hpc] at hplace
    cases a with
    | worker j k => cases p <;> simp [Pc.place, WorkerPc.place] at hplace
    | _ => cases hplace
  | helper p =>
    rw [hpc] at hplace
    cases hplace
  | sup p =>
    rw [hpc] at hplace hrun
    cases a <;> simp only [Agent.runs, Bool.false_eq_true] at hrun
    cases p <;> simp only [Pc.place, SupPc.place, reduceCtorEq, Place.call.injEq,
      RingFn.flag.injEq, and_false] at hplace
    exact ⟨rfl, _, rfl, hplace.1⟩

theorem SupPc.reopens_place {p : SupPc} {b : Bool} (h : p.reopens b = some i) :
    p.place = .out ∨ ∃ v, p.place = .call i (.flag v) ∧ b = !v := by
  cases p with
  | stampProgress r | ask q | askStop q => exact Or.inl rfl
  | reopen r =>
    simp only [SupPc.reopens, Option.ite_none_right_eq_some, Option.some.injEq] at h
    obtain ⟨rfl, rfl⟩ := h
    exact Or.inr ⟨false, rfl, rfl⟩
  | postClose r =>
    simp only [SupPc.reopens, Option.ite_none_left_eq_some, Option.some.injEq,
      Bool.not_eq_true] at h
    obtain ⟨rfl, rfl⟩ := h
    exact Or.inr ⟨true, rfl, rfl⟩
  | _ => cases h

theorem Pool.Shut.of_eq (h : s.Shut i) (hring : s'.ring i = s.ring i)
    (hthr : s'.thr .sup = s.thr .sup) : s'.Shut i := by
  rw [Pool.Shut, Pool.Reopening, hring, hthr]
  exact h

end Flag

/-! ## A shut ring stays shut -/

section Shut

variable {c : Config} {s s' : Pool} {i : Nat}

/-- The re-check of a supervisor that finds `supervisor_stop` set closes the ring again. -/
theorem SupPc.reopens_next {p p' : SupPc} {m m' : Ctl} {ended : Agent → Bool} {l l' : Loc Nat Nat}
    {x : Choice} {k : Cmd} {sh sh' : Nat} (hp : p.reopens l.past = some i)
    (hfit : p.place.Fits sh l) (hstop : m.supervisorStop = true)
    (hn : p.next c m ended l x = some (m', p', k)) (hk : k.apply sh l = some (sh', l')) :
    p'.reopens l'.past = some i := by
  cases p with
  | reopen r =>
    simp only [SupPc.reopens, Option.ite_none_right_eq_some, Option.some.injEq] at hp
    obtain ⟨hpast, rfl⟩ := hp
    simp only [SupPc.next, ringCall] at hn
    split at hn
    · cases hpast
    · cases hn
      rfl
    · cases hn
  | stampProgress r =>
    obtain ⟨rfl, rfl, rfl⟩ := outcome_inj hn
    exact hp
  | ask q =>
    cases q with
    | reopened r =>
      obtain ⟨rfl, rfl, rfl⟩ := outcome_inj hn
      cases hk
      split
      · exact hp
      · rw [show l = .idle from hfit]
        exact hp
    | _ => cases hp
  | askStop q =>
    cases q with
    | reopened r =>
      simp only [SupPc.next, hstop] at hn
      obtain ⟨rfl, rfl, rfl⟩ := outcome_inj hn
      cases hk
      rw [show l = .idle from hfit]
      exact hp
    | _ => cases hp
  | postClose r =>
    simp only [SupPc.reopens, Option.ite_none_left_eq_some, Option.some.injEq] at hp
    obtain ⟨hpast, rfl⟩ := hp
    simp only [SupPc.next, ringCall] at hn
    split at hn
    · cases hn
      cases hk
      rfl
    · exact absurd rfl hpast
    · cases hn
  | _ => cases hp

/-- Inside the ring functions: whoever opens the ring is the supervisor, reopening it. -/
theorem Pool.Shut.access (h : s.Shut i) (hs : Seated c s) {a : Agent} {spurious : Bool}
    {r : Ring Nat Agent Nat} {l : Loc Nat Nat} (hact : (s.thr a).loc.active = true)
    (hstep : (s.ring (s.thr a).sh).step c.capacity.val a spurious (s.thr a).loc = some (r, l)) :
    (s.accessed c a r l).Shut i := by
  have hidle : (s.thr a).loc ≠ .idle := fun he ↦ by
    rw [he] at hact
    cases hact
  -- a party that is not reopening this ring leaves the supervisor as it was
  have hother : a ≠ .sup → s.Reopening i → (s.accessed c a r l).Reopening i := by
    rintro ha ⟨p, hp, hre⟩
    refine ⟨p, ?_, ?_⟩ <;> rw [Pool.accessed_of_ne (Ne.symm ha)]
    · exact hp
    · exact hre
  rcases Ring.step_flag hstep with ⟨hne, hkeep⟩ | ⟨v, hl, hv, hl'⟩
  · rcases h with hclosed | hre
    · left
      by_cases hi : i = (s.thr a).sh
      · subst hi
        rw [Pool.accessed_ring_self]
        exact hkeep.trans hclosed
      · rw [Pool.accessed_ring_of_ne hi]
        exact hclosed
    · right
      by_cases ha : a = .sup
      · subst ha
        obtain ⟨p, hp, hre⟩ := hre
        have hfit := hs.fits .sup
        rw [hp] at hfit
        refine ⟨p, by rw [Pool.accessed_pc, hp], ?_⟩
        rw [Pool.accessed_self]
        rcases SupPc.reopens_place hre with hout | ⟨v, hplace, hpast⟩
        · rw [Pc.place, hout] at hfit
          exact absurd hfit hidle
        · rw [Pc.place, hplace] at hfit
          rcases hfit with ⟨he, -⟩ | ⟨-, hspan⟩
          · exact absurd he hidle
          · -- the store is behind it, and stays behind it
            have hpast' : (s.thr .sup).loc.past = true := by
              generalize (s.thr .sup).loc = l₀ at hspan hne
              cases l₀ <;> simp only [RingFn.spans, Bool.false_eq_true] at hspan
              · exact absurd rfl (hne _)
              · rfl
              · rfl
            rw [Ring.step_past hstep hpast', ← hpast']
            exact hre
      · exact hother ha hre
  · have hplace := hs.flag hl
    by_cases hi : i = (s.thr a).sh
    · subst hi
      cases v with
      | true =>
        left
        rw [Pool.accessed_ring_self]
        exact hv
      | false =>
        obtain ⟨rfl, q, hpc, hq⟩ := hs.reopens hl
        right
        refine ⟨.reopen q, by rw [Pool.accessed_pc, hpc], ?_⟩
        rw [Pool.accessed_self, hl', ← hq]
        rfl
    · refine h.imp (fun hclosed ↦ ?_) fun hre ↦ ?_
      · rw [Pool.accessed_ring_of_ne hi]
        exact hclosed
      · by_cases ha : a = .sup
        · subst ha
          obtain ⟨p, hp, hre⟩ := hre
          rw [hp, Pc.place] at hplace
          rcases SupPc.reopens_place hre with hout | ⟨v', hcall, -⟩
          · rw [hout] at hplace
            cases hplace
          · rw [hcall, Place.call.injEq] at hplace
            exact absurd hplace.1 hi
        · exact hother ha hre

/-- **Step lemma.** Once `supervisor_stop` is set, nobody opens a ring for good. -/
theorem Pool.Shut.step (h : s.Shut i) (hs : Seated c s) (hstop : s.ctl.supervisorStop = true)
    {e : Label} (hst : s.step c e = some s') : s'.Shut i := by
  cases Pool.step_act hs hst with
  | tick t => exact h.of_eq rfl rfl
  | access a x spurious r l hact hstep => exact h.access hs hact hstep
  | sup x he hp hn hk =>
    refine h.imp id fun ⟨q, hq, hre⟩ ↦ ?_
    rw [hp, Pc.sup.injEq] at hq
    subst hq
    have hfit := hs.fits .sup
    rw [hp] at hfit
    refine ⟨_, by rw [Pool.moved_self], ?_⟩
    rw [Pool.moved_self]
    exact SupPc.reopens_next hre hfit hstop hn hk
  | _ => exact h.of_eq rfl (Pool.moved_of_ne (by simp))

end Shut

/-! ## The executor's sweep -/

/-- Once it has stored `supervisor_stop`, the number of rings that the executor has been at. -/
def ShutPc.swept (c : Config) : ShutPc → Option Nat
  | .start | .obsAborts | .obsQuarantined | .cas _ | .waitLock | .waitInc | .waitLife
  | .waitBlocked _ | .waitRelock | .waitAborts | .waitQuarantined | .waitDec _ | .waitBroadcast _
  | .waitUnlock _ | .done _ => none
  | .quiesceLock | .quiesceBroadcast | .quiesceUnlock | .now | .activeLoop _ | .activeClock _
  | .activeTest _ | .timeoutClose _ _ | .supStop _ => none
  | .mark _ .active | .markFrames _ .active | .noteAbort _ .active => none
  | .lifeLock _ false | .lifeStore _ false | .lifeBroadcast _ false | .lifeUnlock _ false
  | .supJoinedLoad _ | .supClock _ | .supPhase _ | .supAlive _ | .supPhase2 _ | .supAlive2 _
  | .supSetJoined _ | .joinClock _ .sup | .joinCreate _ .sup | .joinPoll _ .sup _
  | .joinPollClock _ .sup _ => some 0
  | .mark _ .sup | .markFrames _ .sup | .noteAbort _ .sup => some 0
  | .closeAll _ i | .lateClose _ i => some i
  | .lateRunning _ i | .lateStarting _ i | .lateStore _ i => some (i + 1)
  | _ => some c.nWorkers

/-- It moves on past ring `i` when its call of `awp_ring_close` comes back. -/
def Swept (c : Config) (p : ShutPc) (l : Loc Nat Nat) (n : Nat) : Prop :=
  ∃ k, p.swept c = some k ∧
    (n ≤ k ∨ (n = k + 1 ∧ p.place c = .call k (.flag true) ∧ l.past = true))

section Sweep

variable {c : Config} {m m' : Ctl} {active : Int} {me : Agent} {l : Loc Nat Nat} {x : Choice}
  {k : Cmd} {p p' : ShutPc}

theorem Swept.same {n : Nat} (h : p.swept c = some n) : Swept c p l n := ⟨n, h, Or.inl le_rfl⟩

theorem Exec.teardown_swept (e : Exec) : e.teardown.swept c = some 0 := by
  rw [Exec.teardown]
  split <;> rfl

theorem Exec.workerHead_swept (e : Exec) (i : Nat) : (e.workerHead c i).swept c = some c.nWorkers := by
  rw [Exec.workerHead]
  split <;> rfl

/-- The loop of the quarantine path, at worker `i + 1`. -/
theorem Exec.lateHead_swept {e : Exec} {i n : Nat} (h : (e.lateHead c (i + 1)).swept c = some n) :
    n ≤ i + 1 := by
  rw [Exec.lateHead] at h
  split at h
  · cases h
    exact le_rfl
  · cases h
    omega

theorem closeCall_swept {i n : Nat} {here after : ShutPc} (hi : here.swept c = some i)
    (hplace : here.place c = .call i (.flag true)) (hafter : after.swept c = some (i + 1))
    (h : closeCall m l i here after = some (m', p', k)) (hn : p'.swept c = some n) :
    Swept c here l n := by
  cases l <;> simp only [closeCall, Option.some.injEq, Prod.mk.injEq, reduceCtorEq] at h
  · obtain ⟨-, rfl, -⟩ := h
    exact .same hn
  · obtain ⟨-, rfl, -⟩ := h
    rw [hafter, Option.some.injEq] at hn
    exact ⟨i, hi, Or.inr ⟨hn.symm, hplace, rfl⟩⟩

/-- The store of `supervisor_stop` begins the sweep, and the calls of `awp_ring_close` advance it. -/
theorem ShutPc.next_swept (h : p.next c m active me l x = some (m', p', k)) {n : Nat}
    (hn : p'.swept c = some n) :
    (n = 0 ∧ m'.supervisorStop = true) ∨ (m'.supervisorStop = m.supervisorStop ∧ Swept c p l n) := by
  cases p with
  | supStop e =>
    cases h
    cases hn
    exact Or.inl ⟨rfl, rfl⟩
  | closeAll e i =>
    right
    simp only [ShutPc.next] at h
    split at h
    · rename_i hi
      refine ⟨by rw [(closeCall_cases h).1], closeCall_swept rfl ?_ rfl h hn⟩
      simp only [ShutPc.place, if_pos hi]
    · cases h
      cases hn
      exact ⟨rfl, i, rfl, Or.inl (by omega)⟩
  | lateClose e i =>
    right
    simp only [ShutPc.next] at h
    split at h
    · rename_i hi
      refine ⟨by rw [(closeCall_cases h).1], closeCall_swept rfl ?_ rfl h hn⟩
      simp only [ShutPc.place, if_pos hi]
    · cases h
      cases hn
      exact ⟨rfl, i, rfl, Or.inl (by omega)⟩
  | lateRunning e i =>
    right
    simp only [ShutPc.next, Option.some.injEq, Prod.mk.injEq] at h
    obtain ⟨rfl, rfl, -⟩ := h
    refine ⟨rfl, .same ?_⟩
    split at hn <;> exact hn
  | lateStarting e i =>
    right
    simp only [ShutPc.next, Option.some.injEq, Prod.mk.injEq] at h
    obtain ⟨rfl, rfl, -⟩ := h
    refine ⟨rfl, ?_⟩
    split at hn
    · exact .same hn
    · exact ⟨i + 1, rfl, Or.inl (Exec.lateHead_swept hn)⟩
  | lateStore e i =>
    right
    cases h
    exact ⟨rfl, i + 1, rfl, Or.inl (Exec.lateHead_swept hn)⟩
  | stopClose e i =>
    right
    obtain ⟨rfl, rfl | rfl⟩ := closeCall_cases h <;> exact ⟨rfl, .same hn⟩
  | drainPop e i =>
    right
    have hm : m' = m := by
      cases l <;> simp only [ShutPc.next] at h <;> grind
    have hp : p'.swept c = some c.nWorkers := by
      cases l <;> simp only [ShutPc.next] at h <;> grind [ShutPc.swept, Exec.workerHead_swept]
    exact ⟨by rw [hm], .same (hp.symm.trans hn ▸ rfl)⟩
  | done rc => cases h
  | waitLock | waitRelock | quiesceLock =>
    simp only [ShutPc.next, Option.map_eq_some_iff, Prod.mk.injEq] at h
    obtain ⟨m₁, -, -, rfl, -⟩ := h
    cases hn
  | lifeLock e last =>
    right
    simp only [ShutPc.next, Option.map_eq_some_iff, Prod.mk.injEq] at h
    obtain ⟨m₁, hm, rfl, rfl, -⟩ := h
    refine ⟨by rw [(Ctl.lockLife_eq hm).2], .same ?_⟩
    cases last <;> exact hn
  | lifeStore e last | lifeBroadcast e last =>
    cases h
    refine Or.inr ⟨rfl, .same ?_⟩
    cases last <;> exact hn
  | lifeUnlock e last =>
    cases h
    refine Or.inr ⟨rfl, .same ?_⟩
    cases last <;> exact hn
  | start =>
    cases h
    cases hlife : m.lifecycle <;> rw [hlife] at hn <;> cases hn
  | obsAborts | waitAborts =>
    cases h
    split at hn <;> cases hn
  | cas life | waitLife | waitBlocked ticket =>
    simp only [ShutPc.next] at h
    split at h <;> cases h <;> cases hn
  | waitInc | waitDec v | waitBroadcast v | waitUnlock v | obsQuarantined | waitQuarantined
  | quiesceBroadcast | quiesceUnlock | now =>
    cases h
    cases hn
  | activeLoop d | activeClock d | activeTest d =>
    cases h
    split at hn <;> cases hn
  | timeoutClose e i =>
    simp only [ShutPc.next] at h
    split at h
    · obtain ⟨-, rfl | rfl⟩ := closeCall_cases h <;> cases hn
    · cases h
      cases hn
  | joinCreate e t =>
    right
    cases x with
    | go =>
      cases h
      cases t <;> exact ⟨rfl, .same hn⟩
    | rc v =>
      simp only [ShutPc.next] at h
      split at h <;> cases h
      cases t <;> exact ⟨rfl, .same hn⟩
    | _ => cases h
  | joinClock e t | joinPollClock e t b =>
    cases h
    refine Or.inr ⟨rfl, .same ?_⟩
    split at hn <;> cases t <;> exact hn
  | joinPoll e t b =>
    cases h
    refine Or.inr ⟨rfl, .same ?_⟩
    cases hbox : m.box b with
    | none =>
      rw [hbox] at hn
      cases t <;> exact hn
    | some rc =>
      simp only [hbox] at hn
      split at hn <;> cases t <;> exact hn
  | mark e v | markFrames e v | noteAbort e v =>
    cases h
    refine Or.inr ⟨rfl, .same ?_⟩
    cases v <;> exact hn
  | supJoinedLoad e =>
    cases h
    refine Or.inr ⟨rfl, .same ?_⟩
    split at hn
    · exact hn
    · rw [← hn]
      exact (Exec.teardown_swept _).symm
  | supSetJoined e =>
    cases h
    refine Or.inr ⟨rfl, .same ?_⟩
    rw [← hn]
    exact (Exec.teardown_swept _).symm
  | anyQuarantined e i =>
    simp only [ShutPc.next] at h
    split at h <;> cases h
    · refine Or.inr ⟨rfl, .same ?_⟩
      split at hn <;> exact hn
    · exact Or.inr ⟨rfl, .same hn⟩
  | tailQuarantined =>
    cases h
    cases hn
  | _ =>
    cases h
    refine Or.inr ⟨rfl, .same ?_⟩
    first
      | exact hn
      | (rw [← hn]; exact (Exec.workerHead_swept _ _).symm)
      | (repeat' split at hn) <;> first
          | exact hn
          | cases hn
          | (rw [← hn]; exact (Exec.workerHead_swept _ _).symm)

end Sweep

/-! ## The rings of a stopped pool -/

/-- What the executor has achieved where it stands. -/
def ShutPc.Seals (c : Config) (s : Pool) (l : Loc Nat Nat) (p : ShutPc) : Prop :=
  ∀ k, p.swept c = some k → s.ctl.supervisorStop = true ∧ (∀ i < k, s.Shut i) ∧
    (p.place c = .call k (.flag true) → l.past = true → s.Shut k)

structure Pool.Sealed (c : Config) (s : Pool) : Prop where
  calls : ∀ n p, (s.thr (.api n)).pc.shut? = some p → p.Seals c s (s.thr (.api n)).loc
  stopped : s.ctl.lifecycle = .stopped →
    s.ctl.supervisorStop = true ∧ ∀ i < c.nWorkers, s.Shut i

section Sealed

variable {c : Config} {s s' : Pool} {l l' : Loc Nat Nat} {p p' : ShutPc}

theorem ShutPc.Seals.below (h : p.Seals c s l) {n : Nat} (hn : Swept c p l n) {i : Nat} (hi : i < n) :
    s.Shut i := by
  obtain ⟨k, hk, hle⟩ := hn
  obtain ⟨-, hbelow, hat⟩ := h k hk
  rcases hle with hle | ⟨rfl, hplace, hpast⟩
  · exact hbelow i (by omega)
  · rcases Nat.lt_succ_iff_lt_or_eq.mp hi with hlt | rfl
    · exact hbelow i hlt
    · exact hat hplace hpast

/-- The others may move, and this call within its ring function. -/
theorem ShutPc.Seals.other (h : p.Seals c s l) (hs : Seated c s) {e : Label}
    (hst : s.step c e = some s')
    (hl : ∀ i, p.place c = .call i (.flag true) → l'.past = true → l.past = true ∨ s'.Shut i) :
    p.Seals c s' l' := by
  intro k hk
  obtain ⟨hstop, hbelow, hat⟩ := h k hk
  refine ⟨(Pool.step_onward hs hst).stop hstop, fun i hi ↦ (hbelow i hi).step hs hstop hst, ?_⟩
  intro hplace hpast
  rcases hl k hplace hpast with hpast | hshut
  · exact (hat hplace hpast).step hs hstop hst
  · exact hshut

/-- A step outside the ring functions leaves nobody past a store. -/
theorem Place.Turns.not_past {mode : RingMode} {P P' : Place} {k : Cmd} {sh sh' i : Nat} {v : Bool}
    (h : Turns mode P l k P') (hfit : P.Fits sh l) (hk : k.apply sh l = some (sh', l'))
    (hP : P' = .call i (.flag v)) : l'.past = false := by
  cases h with
  | work hq =>
    cases hk
    rw [show l = .idle from hfit]
    rfl
  | enter hq he =>
    obtain ⟨-, -, rfl⟩ := Cmd.apply_call hk
    rw [Place.call.injEq] at hP
    rw [he, hP.2]
    rfl
  | leave =>
    cases hk
    rfl
  | reserved => cases hP
  | hold => cases hP
  | publish => cases hP
  | commit => cases hP

/-- The executor takes the pool through its life. -/
theorem ShutPc.next_lifecycle {m m' : Ctl} {active : Int} {me : Agent} {x : Choice} {k : Cmd}
    (hn : p.next c m active me l x = some (m', p', k)) :
    m'.lifecycle = m.lifecycle ∨ (∃ life, p = .cas life ∧ m.lifecycle = life ∧ m'.lifecycle = .quiescing) ∨
      (∃ e, p = .lifeStore e false ∧ m'.lifecycle = .draining) ∨
      (∃ e, p = .lifeStore e true ∧ m'.lifecycle = .stopped) := by
  cases p with
  | lifeStore e last =>
    obtain ⟨rfl, rfl, rfl⟩ := outcome_inj hn
    cases last with
    | true => exact Or.inr (Or.inr (Or.inr ⟨e, rfl, rfl⟩))
    | false => exact Or.inr (Or.inr (Or.inl ⟨e, rfl, rfl⟩))
  | cas life =>
    simp only [ShutPc.next] at hn
    split at hn <;> rename_i hlife <;> cases hn
    · exact Or.inr (Or.inl ⟨life, rfl, hlife, rfl⟩)
    · exact Or.inl rfl
  | timeoutClose e i | closeAll e i | lateClose e i =>
    left
    simp only [ShutPc.next] at hn
    split at hn
    · rw [(closeCall_cases hn).1]
    · cases hn
      rfl
  | stopClose e i => exact Or.inl (by rw [(closeCall_cases hn).1])
  | waitLock | waitRelock | quiesceLock | lifeLock e last =>
    left
    simp only [ShutPc.next, Option.map_eq_some_iff, Prod.mk.injEq] at hn
    obtain ⟨m₁, hm, rfl, -, -⟩ := hn
    rw [(Ctl.lockLife_eq hm).2]
  | drainPop e i =>
    left
    cases l <;> simp only [ShutPc.next] at hn <;> grind
  | joinCreate e t =>
    left
    cases x <;> simp only [ShutPc.next] at hn <;> grind
  | waitLife | waitBlocked ticket | anyQuarantined e i =>
    left
    simp only [ShutPc.next] at hn
    split at hn <;> cases hn <;> rfl
  | done rc => cases hn
  | _ =>
    left
    obtain ⟨rfl, rfl, rfl⟩ := outcome_inj hn
    rfl

/-- A pool that runs has done so all along. -/
theorem Pool.step_running (hs : Seated c s) {e : Label} (hst : s.step c e = some s')
    (hrun : s'.ctl.lifecycle = .running) : s.ctl.lifecycle = .running := by
  cases Pool.step_act hs hst with
  | tick | call | shutdown | destroyed | access | api => exact hrun
  | shut n x hw hp hn hk =>
    rcases ShutPc.next_lifecycle hn with hkeep | ⟨life, -, -, hq⟩ | ⟨e, -, hd⟩ | ⟨e, -, hd⟩
    · exact hkeep.symm.trans hrun
    · cases hq.symm.trans hrun
    · cases hd.symm.trans hrun
    · cases hd.symm.trans hrun
  | destroy n x hp hn hfrom hto hframe hk => exact hframe.lifecycle.symm.trans hrun
  | worker i j x hi hj hp hn hk => exact (WorkerPc.next_lifecycle hn).symm.trans hrun
  | sup x he hp hn hk => exact (SupPc.next_lifecycle hn).symm.trans hrun
  | helper j x hh hp hn hk => exact (HelperPc.next_lifecycle hn).symm.trans hrun

end Sealed

section Run

variable {c : Config} {s s' : Pool} {l l' : Loc Nat Nat} {p p' : ShutPc}

/-- The call's own step outside the ring functions. -/
theorem ShutPc.Seals.own (h : p.Seals c s l) (hs : Seated c s) {e : Label}
    (hst : s.step c e = some s') {active : Int} {me : Agent} {x : Choice} {k : Cmd} {sh sh' : Nat}
    (hn : p.next c s.ctl active me l x = some (s'.ctl, p', k)) (hfit : (p.place c).Fits sh l)
    (hk : k.apply sh l = some (sh', l')) : p'.Seals c s' l' := by
  intro n hswept
  have hpast : p'.place c = .call n (.flag true) → l'.past = true → s'.Shut n := by
    intro hplace hpast
    rw [(ShutPc.next_turns hn).not_past hfit hk hplace] at hpast
    cases hpast
  rcases ShutPc.next_swept hn hswept with ⟨rfl, hstop⟩ | ⟨hstop, hsw⟩
  · exact ⟨hstop, fun i hi ↦ absurd hi (Nat.not_lt_zero i), hpast⟩
  · have hset : s.ctl.supervisorStop = true := by
      obtain ⟨n₀, hn₀, -⟩ := hsw
      exact (h n₀ hn₀).1
    exact ⟨hstop.trans hset, fun i hi ↦ (h.below hsw hi).step hs hset hst, hpast⟩

/-- A call that is in its ring function closes the ring on its way past the store. -/
theorem Seated.closes (hs : Seated c s) {a : Agent} {i : Nat} {spurious : Bool}
    {r : Ring Nat Agent Nat} (hplace : (s.thr a).pc.place c a = .call i (.flag true))
    (hact : (s.thr a).loc.active = true)
    (hstep : (s.ring (s.thr a).sh).step c.capacity.val a spurious (s.thr a).loc = some (r, l)) :
    (s.thr a).loc.past = true ∨ ((s.thr a).sh = i ∧ r.closed = true) := by
  have hfit := hs.fits a
  rw [hplace] at hfit
  rcases hfit with ⟨hidle, -⟩ | ⟨hsh, hspan⟩
  · rw [hidle] at hact
    cases hact
  · generalize (s.thr a).loc = l₀ at hspan hstep
    cases l₀ <;> simp only [RingFn.spans, decide_eq_true_eq, Bool.false_eq_true] at hspan
    · rw [← hspan] at hstep
      cases hstep
      exact Or.inr ⟨hsh, rfl⟩
    · exact Or.inl rfl
    · exact Or.inl rfl

theorem Pc.shut?_place {a : Agent} {pc : Pc} (h : pc.shut? = some p) : pc.place c a = p.place c := by
  cases pc with
  | shut q =>
    cases h
    rfl
  | destroy q =>
    cases q <;> cases h
    rfl
  | _ => cases h

theorem Pool.Sealed.init (now : Nat) : (Pool.init c now).Sealed c where
  calls _ _ h := by cases h
  stopped h := by cases h

/-- **Step lemma.** -/
theorem Pool.Sealed.step (h : s.Sealed c) (hs : Seated c s) {e : Label}
    (hst : s.step c e = some s') : s'.Sealed c := by
  have hstopped : s'.ctl.lifecycle = s.ctl.lifecycle → s'.ctl.lifecycle = .stopped →
      s'.ctl.supervisorStop = true ∧ ∀ i < c.nWorkers, s'.Shut i := fun hkeep hl ↦ by
    obtain ⟨hstop, hshut⟩ := h.stopped (hkeep.symm.trans hl)
    exact ⟨(Pool.step_onward hs hst).stop hstop, fun i hi ↦ (hshut i hi).step hs hstop hst⟩
  -- a call that stands where it stood
  have hstill : ∀ n p, s'.thr (.api n) = s.thr (.api n) →
      (s'.thr (.api n)).pc.shut? = some p → p.Seals c s' (s'.thr (.api n)).loc := by
    intro n p hthr hp
    rw [hthr] at hp ⊢
    exact (h.calls n p hp).other hs hst fun _ _ hpast ↦ Or.inl hpast
  cases Pool.step_act hs hst with
  | tick t => exact ⟨fun n p hp ↦ hstill n p rfl hp, hstopped rfl⟩
  | access a x spurious r l hact hstep =>
    refine ⟨fun n p hp ↦ ?_, hstopped rfl⟩
    by_cases ha : Agent.api n = a
    · subst ha
      rw [Pool.accessed_pc] at hp
      rw [Pool.accessed_self]
      refine (h.calls n p hp).other hs hst fun i hplace hpast ↦ ?_
      rcases hs.closes ((Pc.shut?_place hp).trans hplace) hact hstep with hpast' | ⟨rfl, hclosed⟩
      · exact Or.inl hpast'
      · refine Or.inr (Or.inl ?_)
        rw [Pool.accessed_ring_self]
        exact hclosed
    · exact hstill n p (Pool.accessed_of_ne ha) hp
  | shut n x hw hp hn hk =>
    rename_i wrap q q' m k sh l
    have hfit := hs.fits (.api n)
    rw [hp, hw.place] at hfit
    have hown := (h.calls n q (by rw [hp, hw.shut?])).own hs hst hn hfit hk
    refine ⟨fun n' p hp' ↦ ?_, fun hl ↦ ?_⟩
    · by_cases hne : Agent.api n' = .api n
      · rw [hne, Pool.moved_self] at hp' ⊢
        rw [hw.shut?, Option.some.injEq] at hp'
        exact hp' ▸ hown
      · exact hstill n' p (Pool.moved_of_ne hne) hp'
    · rcases ShutPc.next_lifecycle hn with hkeep | ⟨life, -, -, hq⟩ | ⟨e, -, hd⟩ | ⟨e, rfl, -⟩
      · exact hstopped hkeep hl
      · cases hl.symm.trans hq
      · cases hl.symm.trans hd
      · simp only [ShutPc.next, Option.some.injEq, Prod.mk.injEq] at hn
        obtain ⟨-, rfl, -⟩ := hn
        exact ⟨(hown _ rfl).1, (hown _ rfl).2.1⟩
  | shutdown n tls hidle =>
    refine ⟨fun n' p hp ↦ ?_, hstopped rfl⟩
    by_cases hne : Agent.api n' = .api n
    · rw [hne, Pool.moved_self] at hp
      cases tls <;> cases hp <;>
      · intro k hk
        cases hk
    · exact hstill n' p (Pool.moved_of_ne hne) hp
  | destroy n x hp hn hfrom hto hframe hk =>
    rename_i p p' m k sh l
    refine ⟨fun n' q hq ↦ ?_, hstopped hframe.lifecycle⟩
    by_cases hne : Agent.api n' = .api n
    · rw [hne, Pool.moved_self] at hq
      cases p' <;> cases hq
      rw [hto q rfl]
      intro k hk
      cases hk
    · exact hstill n' q (Pool.moved_of_ne hne) hq
  | call n pool f hidle | destroyed n hidle | api n x hp hn hk =>
    refine ⟨fun n' p hp ↦ ?_, hstopped rfl⟩
    by_cases hne : Agent.api n' = .api n
    · rw [hne, Pool.moved_self] at hp
      cases hp
    · exact hstill n' p (Pool.moved_of_ne hne) hp
  | worker i j x hi hj hp hn hk =>
    exact ⟨fun n p ↦ hstill n p (Pool.moved_of_ne (by simp)),
      hstopped (WorkerPc.next_lifecycle hn)⟩
  | sup x he hp hn hk =>
    exact ⟨fun n p ↦ hstill n p (Pool.moved_of_ne (by simp)),
      hstopped (SupPc.next_lifecycle hn)⟩
  | helper j x hh hp hn hk =>
    exact ⟨fun n p ↦ hstill n p (Pool.moved_of_ne (by simp)),
      hstopped (HelperPc.next_lifecycle hn)⟩

theorem Pool.Sealed.run {ok : Pool → Label → Prop} {now : Nat}
    (hrun : Steps (Pool.step c) ok (Pool.init c now) s) : s.Sealed c :=
  hrun.invariant_under (P := fun s ↦ s.Sealed c) (fun _ ht ↦ Sound.run ht)
    (fun _ _ _ hs _ h _ hst ↦ h.step hs.seated hst) (.init now)

/-- **Terminal closure.** In every run, once the pool is `STOPPED` a worker ring is closed unless
the supervisor has just reopened it and has not come to the end of its re-check. -/
theorem terminal_closure {now : Nat} (hrun : Steps (Pool.step c) anyStep (Pool.init c now) s)
    (hstop : s.ctl.lifecycle = .stopped) {i : Nat} (hi : i < c.nWorkers)
    (hsup : ¬ s.Reopening i) : (s.ring i).closed = true :=
  (((Pool.Sealed.run hrun).stopped hstop).2 i hi).resolve_right hsup

end Run

/-! The supervisor restarts a worker that has stalled and is about to reopen its ring when a shutdown
begins, gives up on the supervisor and stops the pool. -/

/-- One worker, which a supervisor restarts. -/
def Config.watched : Config :=
  { Config.small with
    enableSupervisor := true, enableRestart := true, supervisorIntervalMs := 1
    stallThresholdMs := 1 }

/-- Worker 0 has two frames, is asked to stop in its first callback, and empties its ring. -/
def stallAndExit : List Label :=
  submits 0 0 ++ turns (.worker 0 0) 14 ++ submits 1 0 ++ [.tick 2000000] ++ turns .sup 15 ++
    [.step (.worker 0 0) (.rc 0)] ++ turns (.worker 0 0) 18 ++ [.step (.worker 0 0) (.rc 0)] ++
    turns (.worker 0 0) 8

/-- A shutdown passes by a supervisor that is about to store its reopen. -/
def lateReopen : List Label :=
  stallAndExit ++ turns .sup 13 ++ [.shutdown 2 false] ++ turns (.api 2) 20 ++ [.tick 10000000] ++
    turns (.api 2) 25 ++ turns .sup 1

theorem terminal_closure_lateReopen : ∃ s₁ s₂ : Pool,
    exec (Pool.step .watched) (Pool.init .watched 0) lateReopen = some s₁ ∧
    exec (Pool.step .watched) s₁ (turns .sup 8) = some s₂ ∧
    s₁.ctl.lifecycle = .stopped ∧ (s₁.ring 0).closed = false ∧ (s₂.ring 0).closed = true := by
  have hrun : (exec (Pool.step .watched) (Pool.init .watched 0) lateReopen).any (fun s₁ ↦
      decide (s₁.ctl.lifecycle = .stopped ∧ (s₁.ring 0).closed = false) &&
      (exec (Pool.step .watched) s₁ (turns .sup 8)).any fun s₂ ↦
        decide (s₂.ctl.lifecycle = .stopped ∧ (s₂.thr .sup).pc = .sup (.postClose ⟨2000000, 0⟩) ∧
          (s₂.thr .sup).loc.past = true)) = true := by decide +kernel
  obtain ⟨s₁, h₁, hs₁⟩ := exec_any hrun
  rw [Bool.and_eq_true] at hs₁
  obtain ⟨s₂, h₂, hs₂⟩ := exec_any hs₁.2
  obtain ⟨hstop, hopen⟩ := of_decide_eq_true hs₁.1
  obtain ⟨hstop₂, hpc, hpast⟩ := of_decide_eq_true hs₂
  refine ⟨s₁, s₂, h₁, h₂, hstop, hopen,
    terminal_closure ((exec_steps h₁).trans (exec_steps h₂)) hstop₂ (by decide) ?_⟩
  rintro ⟨p, hp, hre⟩
  rw [hpc, Pc.sup.injEq] at hp
  subst hp
  rw [hpast] at hre
  cases hre

end Awp
