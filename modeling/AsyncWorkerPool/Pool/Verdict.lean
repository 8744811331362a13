import AsyncWorkerPool.Pool.Closure

/-!
# Verdict — what the calls of `awp_pool_shutdown` report

A call reports what it reads of `shutdown_aborts` and `quarantined` after the pool has stopped, the
executor in addition its own count of aborts.  The executor does not stop a quarantined pool before
an abort is on record, and in a stopped pool that is not quarantined nobody is left who could write
either word, so that all calls come to the same verdict, as long as the count fits the `int` that it
is converted to.
-/

open Foundation

namespace Awp

/-- Neither a quarantine nor an abort. -/
def Ctl.Clean (m : Ctl) : Prop := m.quarantined = false ∧ m.shutdownAborts = 0

/-- Every thread has been joined, and the flags say so. -/
def Ctl.Settled (c : Config) (m : Ctl) : Prop :=
  m.supervisorJoined = true ∧ ∀ i < c.nWorkers, (m.w i).joined = true

/-- `v` is the right thing to report, where `few` says that the count of aborts fits an `int`.  In any
case 0 is not reported of a quarantined pool. -/
def Verdict (few : Prop) (m : Ctl) (v : Int) : Prop :=
  m.lifecycle = .stopped ∧ (v = 0 → m.quarantined = false) ∧
    (few → (v = 0 ∧ m.Clean) ∨ (0 < v ∧ ¬ m.Clean))

/-- The executor's `aborts`. -/
def ShutPc.aborts : ShutPc → Nat
  | .timeoutClose x _ | .supStop x | .lifeLock x _ | .lifeStore x _ | .lifeBroadcast x _
  | .lifeUnlock x _ | .supJoinedLoad x | .supClock x | .supPhase x | .supAlive x | .supPhase2 x
  | .supAlive2 x | .supSetJoined x | .joinClock x _ | .joinCreate x _ | .joinPoll x _ _
  | .joinPollClock x _ _ | .closeAll x _ | .closeFrames x | .workerJoined x _ | .workerState x _
  | .waitStarting x _ | .waitRunning x _ | .waitClock x _ | .workerState2 x _
  | .exitedJoined x _ _ | .setJoined x _ _ | .setStateJoined x _ _ | .setQuarantined x _
  | .stopStore x _ | .stopClose x _ | .graceNow x _ | .graceRunning x _ _ | .graceStarting x _ _
  | .graceClock x _ _ | .graceDeadline x _ _ | .graceExited x _ | .stuckStore x _ | .mark x _
  | .markFrames x _ | .noteAbort x _ | .drainState x _ | .drainClock x _ | .drainPop x _
  | .drainCount x _ _ | .lateClose x _ | .lateRunning x _ | .lateStarting x _ | .lateStore x _
  | .anyQuarantined x _ | .anyActive x | .persistLoad x | .persistCas x | .tailAborts x => x.aborts
  | _ => 0

/-- What a call knows of the verdict where it stands. -/
def ShutPc.Judges (few : Prop) (m : Ctl) : ShutPc → Prop
  | .start | .cas _ | .waitLock | .waitInc | .waitLife | .waitBlocked _ | .waitRelock => True
  | .obsAborts | .waitAborts => m.lifecycle = .stopped
  | .obsQuarantined | .waitQuarantined | .tailQuarantined => m.lifecycle = .stopped ∧ (few → m.Clean)
  | .waitDec v | .waitBroadcast v | .waitUnlock v | .done v => Verdict few m v
  | .lifeLock x true | .lifeStore x true =>
    m.lifecycle ≠ .stopped ∧ (few → x.aborts ≤ m.shutdownAborts) ∧
      (few → m.quarantined = true → m.shutdownAborts ≠ 0)
  | .lifeBroadcast x true | .lifeUnlock x true | .tailAborts x =>
    m.lifecycle = .stopped ∧ (few → x.aborts ≤ m.shutdownAborts)
  | p => m.lifecycle ≠ .stopped ∧ (few → p.aborts ≤ m.shutdownAborts)

/-- A stopped pool that is quarantined has an abort on record. -/
def Ctl.Recorded (few : Prop) (m : Ctl) : Prop :=
  m.lifecycle = .stopped → m.quarantined = true → few → m.shutdownAborts ≠ 0

/-- The words that the verdict depends on are the same. -/
structure Ctl.Agrees (m m' : Ctl) : Prop where
  lifecycle : m'.lifecycle = m.lifecycle
  quarantined : m'.quarantined = m.quarantined
  aborts : m'.shutdownAborts = m.shutdownAborts

/-- An access that adds to the count of aborts leaves it below `2 ^ 31`. -/
def Few (s : Pool) (e : Label) : Prop := s.records e = true → s.ctl.shutdownAborts + 1 < 2 ^ 31

section Judges

variable {c : Config} {few : Prop} {m m' : Ctl} {p p' : ShutPc}

/-- A count that fits an `int` converts to itself. -/
theorem abortsInt_eq {n : Nat} (h : n < 2 ^ 31) : abortsInt n = n := by
  have hword : ((2 ^ 32 : Nat) : Int) = 4294967296 := rfl
  unfold abortsInt
  rw [Int.bmod_def, hword]
  omega

theorem Ctl.Onward.fits {b : Bool} (h : m.Onward b m') (hb : b = true → m.shutdownAborts + 1 < 2 ^ 31)
    (hm : m.shutdownAborts < 2 ^ 31) :
    m.shutdownAborts ≤ m'.shutdownAborts ∧ m'.shutdownAborts < 2 ^ 31 := by
  rcases h.aborts with heq | ⟨hz, hone⟩ | ⟨hrec, hnext⟩
  · omega
  · omega
  · have hfit := hb hrec
    omega

theorem Ctl.Agrees.refl (m : Ctl) : m.Agrees m := ⟨rfl, rfl, rfl⟩

theorem Ctl.Agrees.clean (h : m.Agrees m') : m'.Clean ↔ m.Clean := by
  rw [Ctl.Clean, h.quarantined, h.aborts, Ctl.Clean]

theorem Ctl.Agrees.verdict (h : m.Agrees m') {v : Int} (hv : Verdict few m v) : Verdict few m' v := by
  rw [Verdict, h.lifecycle, h.quarantined, h.clean]
  exact hv

theorem Ctl.Recorded.agrees (hm : m.Recorded few) (h : m.Agrees m') : m'.Recorded few := by
  rw [Ctl.Recorded, h.lifecycle, h.quarantined, h.aborts]
  exact hm

theorem Ctl.Recorded.clean (hm : m.Recorded few) (hl : m.lifecycle = .stopped) (hf : few)
    (hz : m.shutdownAborts = 0) : m.Clean := by
  refine ⟨?_, hz⟩
  by_contra hq
  exact hm hl (by simpa using hq) hf hz

theorem ShutPc.Judges.agrees (hp : p.Judges few m) (h : m.Agrees m') : p.Judges few m' := by
  cases p with
  | waitDec v | waitBroadcast v | waitUnlock v | done v => exact h.verdict hp
  | obsQuarantined | waitQuarantined | tailQuarantined =>
    exact ⟨h.lifecycle.trans hp.1, fun hf ↦ h.clean.mpr (hp.2 hf)⟩
  | lifeLock x last | lifeStore x last | lifeBroadcast x last | lifeUnlock x last =>
    cases last <;> simp only [ShutPc.Judges, h.lifecycle, h.quarantined, h.aborts] <;> exact hp
  | start | cas life | waitLock | waitInc | waitLife | waitBlocked ticket | waitRelock => trivial
  | _ =>
    simp only [ShutPc.Judges, h.lifecycle, h.aborts]
    exact hp

/-- Where somebody else may have quarantined the pool or recorded an abort, the pool was quarantined
before. -/
theorem ShutPc.Judges.onward {b : Bool} (hp : p.Judges few m) (h : m.Onward b m')
    (hle : few → m.shutdownAborts ≤ m'.shutdownAborts) (hlife : m'.lifecycle = m.lifecycle)
    (hstop : m.lifecycle = .stopped → m.quarantined = true)
    (hfinal : Fact.final ∈ p.facts → m.quarantined = true) : p.Judges few m' := by
  have hdirty : m.lifecycle = .stopped → ¬ m.Clean ∧ ¬ m'.Clean := fun hl ↦
    ⟨fun hc ↦ Bool.false_ne_true (hc.1.symm.trans (hstop hl)),
      fun hc ↦ Bool.false_ne_true (hc.1.symm.trans (h.quarantined (hstop hl)))⟩
  have hverdict : ∀ v, Verdict few m v → Verdict few m' v := fun v ⟨hl, hz, hv⟩ ↦ by
    refine ⟨hlife.trans hl, fun hv0 ↦ ?_, fun hf ↦ Or.inr ⟨?_, (hdirty hl).2⟩⟩
    · exact absurd ((hz hv0).symm.trans (hstop hl)) Bool.false_ne_true
    · rcases hv hf with ⟨-, hc⟩ | ⟨hpos, -⟩
      · exact absurd hc (hdirty hl).1
      · exact hpos
  have haborts : ∀ {n : Nat}, (few → n ≤ m.shutdownAborts) → few → n ≤ m'.shutdownAborts :=
    fun ha hf ↦ (ha hf).trans (hle hf)
  cases p with
  | waitDec v | waitBroadcast v | waitUnlock v | done v => exact hverdict v hp
  | obsQuarantined | waitQuarantined | tailQuarantined =>
    exact ⟨hlife.trans hp.1, fun hf ↦ absurd (hp.2 hf) (hdirty hp.1).1⟩
  | lifeLock x last | lifeStore x last =>
    cases last with
    | true =>
      obtain ⟨hl, ha, hr⟩ := hp
      refine ⟨fun hl' ↦ hl (hlife.symm.trans hl'), haborts ha, fun hf _ ↦ ?_⟩
      have hq := hfinal (by simp [ShutPc.facts])
      have hpos := hr hf hq
      have hle := hle hf
      omega
    | false => exact ⟨fun hl' ↦ hp.1 (hlife.symm.trans hl'), haborts hp.2⟩
  | lifeBroadcast x last | lifeUnlock x last =>
    cases last with
    | true => exact ⟨hlife.trans hp.1, haborts hp.2⟩
    | false => exact ⟨fun hl' ↦ hp.1 (hlife.symm.trans hl'), haborts hp.2⟩
  | tailAborts x => exact ⟨hlife.trans hp.1, haborts hp.2⟩
  | obsAborts | waitAborts => exact hlife.trans hp
  | start | cas life | waitLock | waitInc | waitLife | waitBlocked ticket | waitRelock => trivial
  | _ => exact ⟨fun hl' ↦ hp.1 (hlife.symm.trans hl'), haborts hp.2⟩

end Judges

/-! ## A call's own steps -/

section Own

variable {c : Config} {few : Prop} {m m' : Ctl} {p p' : ShutPc} {active : Int} {me : Agent} {l : Loc Nat Nat}
  {x : Choice} {k : Cmd} {e : Exec}

/-- Still at work, with its own aborts on record. -/
def Exec.Going (few : Prop) (e : Exec) (m : Ctl) : Prop :=
  m.lifecycle ≠ .stopped ∧ (few → e.aborts ≤ m.shutdownAborts)

theorem Exec.Going.teardown (h : e.Going few m) : e.teardown.Judges few m := by
  rw [Exec.teardown]
  split <;> exact h

theorem Exec.Going.workerHead (h : e.Going few m) (i : Nat) : (e.workerHead c i).Judges few m := by
  rw [Exec.workerHead]
  split <;> exact h

theorem Exec.Going.lateHead (h : e.Going few m) (i : Nat) : (e.lateHead c i).Judges few m := by
  rw [Exec.lateHead]
  split <;> exact h

theorem Exec.Going.ok (h : e.Going few m) (t : JoinFor) : (t.ok e).Judges few m := by
  cases t <;> exact h

theorem Exec.Going.timeout (h : e.Going few m) (t : JoinFor) : (t.timeout e).Judges few m := by
  cases t <;> exact h

theorem Exec.Going.failed (h : e.Going few m) (t : JoinFor) : (t.failed e).Judges few m := by
  cases t <;> exact h

theorem Exec.Going.after (h : e.Going few m) (v : MarkFor) : (v.after e).Judges few m := by
  cases v <;> exact h

theorem Exec.Going.noted (h : e.Going few m) (hfit : few → m.shutdownAborts + 1 < 2 ^ 31)
    (v : MarkFor) : (v.noted { e with aborts := e.aborts + 1 }).Judges few m.noteAbort := by
  have h' : Exec.Going few { e with aborts := e.aborts + 1 } m.noteAbort := by
    refine ⟨h.1, fun hf ↦ ?_⟩
    have hle := h.2 hf
    have hfit := hfit hf
    simp only [Ctl.noteAbort]
    omega
  cases v with
  | sup => exact h'
  | _ => exact h'

/-- What a step of a shutdown call does to the words that the others judge by. -/
def Settles (m m' : Ctl) (p : ShutPc) : Prop :=
  m.Agrees m' ∨ (m.lifecycle ≠ .stopped ∧ (p.executes = true ∨ ∃ life, p = .cas life ∧ m.lifecycle = life))

/-- The executor at work. -/
theorem Exec.Going.step (h : e.Going few m) (hx : p.executes = true) (hlife : m'.lifecycle = m.lifecycle)
    (hp' : p'.Judges few m') : p'.Judges few m' ∧ m'.Recorded few ∧ Settles m m' p :=
  ⟨hp', fun hl ↦ absurd (hlife.symm.trans hl) h.1, Or.inr ⟨h.1, Or.inl hx⟩⟩

theorem ShutPc.Judges.next (hp : p.Judges few m) (hr : m.Recorded few) (hm : few → m.shutdownAborts < 2 ^ 31)
    (hfew : few → p.records = true → m.shutdownAborts + 1 < 2 ^ 31)
    (hcas : ∀ life, p = .cas life → life ≠ .stopped)
    (hn : p.next c m active me l x = some (m', p', k)) :
    p'.Judges few m' ∧ m'.Recorded few ∧ Settles m m' p := by
  have hsame : ∀ {m₁ : Ctl} {p₁ : ShutPc}, m.Agrees m₁ → p₁.Judges few m →
      p₁.Judges few m₁ ∧ m₁.Recorded few ∧ Settles m m₁ p := fun ha hp₁ ↦
    ⟨hp₁.agrees ha, hr.agrees ha, Or.inl ha⟩
  cases p with
  | done rc => cases hn
  | start =>
    obtain ⟨rfl, rfl, rfl⟩ := outcome_inj hn
    refine hsame (.refl m) ?_
    cases hl : m.lifecycle <;> trivial
  | obsAborts | waitAborts =>
    obtain ⟨rfl, rfl, rfl⟩ := outcome_inj hn
    refine hsame (.refl m) ?_
    split
    · rename_i hz
      refine ⟨hp, fun hf ↦ ?_⟩
      rw [abortsInt_eq (hm hf)] at hz
      exact hr.clean hp hf (Int.natCast_eq_zero.mp hz)
    · rename_i hz
      refine ⟨hp, fun hv ↦ absurd hv hz, fun hf ↦ ?_⟩
      rw [abortsInt_eq (hm hf)] at hz ⊢
      exact Or.inr ⟨by omega, fun hc ↦ hz (by rw [hc.2]; rfl)⟩
  | obsQuarantined | waitQuarantined | tailQuarantined =>
    obtain ⟨rfl, rfl, rfl⟩ := outcome_inj hn
    refine hsame (.refl m) ⟨hp.1, fun hv ↦ ?_, fun hf ↦ ?_⟩
    · by_contra hq
      rw [if_pos (by simpa using hq)] at hv
      cases hv
    · rw [(hp.2 hf).1]
      exact Or.inl ⟨rfl, hp.2 hf⟩
  | cas life =>
    simp only [ShutPc.next] at hn
    split at hn
    · rename_i hlife
      obtain ⟨rfl, rfl, rfl⟩ := outcome_inj hn
      exact ⟨⟨by simp, fun _ ↦ Nat.zero_le _⟩, fun hl ↦ (by cases hl),
        Or.inr ⟨hlife ▸ hcas life rfl, Or.inr ⟨life, rfl, hlife⟩⟩⟩
    · cases hn
      exact hsame (.refl m) trivial
  | waitLock | waitRelock | quiesceLock =>
    simp only [ShutPc.next, Option.map_eq_some_iff, Prod.mk.injEq] at hn
    obtain ⟨m₁, hm, rfl, rfl, -⟩ := hn
    rw [(Ctl.lockLife_eq hm).2]
    exact hsame { Ctl.Agrees.refl m with } hp
  | lifeLock e last =>
    simp only [ShutPc.next, Option.map_eq_some_iff, Prod.mk.injEq] at hn
    obtain ⟨m₁, hm, rfl, rfl, -⟩ := hn
    rw [(Ctl.lockLife_eq hm).2]
    refine hsame { Ctl.Agrees.refl m with } ?_
    cases last <;> exact hp
  | waitInc | waitBroadcast v | waitDec v | waitUnlock v | quiesceBroadcast | quiesceUnlock =>
    obtain ⟨rfl, rfl, rfl⟩ := outcome_inj hn
    exact hsame { Ctl.Agrees.refl m with } hp
  | lifeBroadcast e last =>
    obtain ⟨rfl, rfl, rfl⟩ := outcome_inj hn
    refine hsame { Ctl.Agrees.refl m with } ?_
    cases last <;> exact hp
  | lifeUnlock e last =>
    obtain ⟨rfl, rfl, rfl⟩ := outcome_inj hn
    refine hsame { Ctl.Agrees.refl m with } ?_
    cases last <;> exact hp
  | waitLife =>
    simp only [ShutPc.next] at hn
    split at hn <;> cases hn
    · rename_i hl
      exact hsame (.refl m) hl
    · exact hsame { Ctl.Agrees.refl m with } trivial
  | waitBlocked ticket =>
    simp only [ShutPc.next] at hn
    split at hn <;> cases hn
    exact hsame (.refl m) trivial
  | now =>
    obtain ⟨rfl, rfl, rfl⟩ := outcome_inj hn
    exact hsame (.refl m) hp
  | activeLoop d | activeClock d | activeTest d =>
    obtain ⟨rfl, rfl, rfl⟩ := outcome_inj hn
    refine hsame (.refl m) ?_
    split <;> exact ⟨hp.1, fun _ ↦ Nat.zero_le _⟩
  | lifeStore e last =>
    obtain ⟨rfl, rfl, rfl⟩ := outcome_inj hn
    cases last with
    | true =>
      exact ⟨⟨rfl, hp.2.1⟩, fun _ hq hf ↦ hp.2.2 hf hq, Or.inr ⟨hp.1, Or.inl rfl⟩⟩
    | false => exact ⟨⟨by simp, hp.2⟩, fun hl ↦ (by cases hl), Or.inr ⟨hp.1, Or.inl rfl⟩⟩
  | noteAbort e v =>
    obtain ⟨rfl, rfl, rfl⟩ := outcome_inj hn
    exact Exec.Going.step (e := e) hp rfl rfl (Exec.Going.noted (e := e) hp (hfew · rfl) v)
  | mark e v =>
    obtain ⟨rfl, rfl, rfl⟩ := outcome_inj hn
    exact Exec.Going.step (e := e) hp rfl rfl hp
  | markFrames e v =>
    obtain ⟨rfl, rfl, rfl⟩ := outcome_inj hn
    refine hsame { Ctl.Agrees.refl m with } ?_
    exact Exec.Going.after (e := e) hp v
  | persistLoad e =>
    obtain ⟨rfl, rfl, rfl⟩ := outcome_inj hn
    refine hsame (.refl m) ?_
    split
    · exact hp
    · rename_i hq
      exact ⟨hp.1, hp.2, fun _ hq' ↦ absurd hq' hq⟩
  | persistCas e =>
    obtain ⟨rfl, rfl, rfl⟩ := outcome_inj hn
    refine Exec.Going.step (e := e) hp rfl rfl ⟨hp.1, fun hf ↦ ?_, fun _ _ ↦ ?_⟩
    · have hle := (m.persistAbort_onward (b := false)).fits (by simp) (hm hf)
      exact (hp.2 hf).trans hle.1
    · simp only [Ctl.persistAbort]
      split <;> omega
  | tailAborts e =>
    obtain ⟨rfl, rfl, rfl⟩ := outcome_inj hn
    refine hsame (.refl m) ?_
    have hmax : few → max (abortsInt m.shutdownAborts) e.aborts = m.shutdownAborts := fun hf ↦ by
      have hle := hp.2 hf
      rw [abortsInt_eq (hm hf)]
      omega
    split
    · rename_i hz
      refine ⟨hp.1, fun hf ↦ ?_⟩
      rw [hmax hf] at hz
      exact hr.clean hp.1 hf (Int.natCast_eq_zero.mp hz)
    · rename_i hz
      refine ⟨hp.1, fun hv ↦ absurd hv hz, fun hf ↦ ?_⟩
      rw [hmax hf] at hz ⊢
      exact Or.inr ⟨by omega, fun hc ↦ hz (by rw [hc.2]; rfl)⟩
  | timeoutClose e i | closeAll e i | lateClose e i =>
    simp only [ShutPc.next] at hn
    split at hn
    · obtain ⟨rfl, rfl | rfl⟩ := closeCall_cases hn <;> exact hsame (.refl _) hp
    · cases hn
      exact hsame (.refl m) hp
  | stopClose e i =>
    obtain ⟨rfl, rfl | rfl⟩ := closeCall_cases hn <;> exact hsame (.refl _) hp
  | drainPop e i =>
    have hm : m' = m := by
      cases l <;> simp only [ShutPc.next] at hn <;> grind
    subst hm
    refine hsame (.refl m') ?_
    have hhead := Exec.Going.workerHead (c := c) (e := e) hp (i + 1)
    cases l with
    | idle =>
      cases hn
      exact hp
    | ret v =>
      cases v with
      | popped q out =>
        cases out with
        | none =>
          cases hn
          exact hhead
        | some slot =>
          cases hn
          exact hp
      | rc n =>
        cases hn
        exact hhead
      | _ => cases hn
    | _ => cases hn
  | joinCreate e t =>
    cases x with
    | go =>
      obtain ⟨rfl, rfl, rfl⟩ := outcome_inj hn
      exact hsame { Ctl.Agrees.refl m with } hp
    | rc n =>
      simp only [ShutPc.next] at hn
      split at hn <;> cases hn
      exact hsame (.refl m) (Exec.Going.failed (e := e) hp t)
    | _ => cases hn
  | joinClock e t | joinPollClock e t b =>
    obtain ⟨rfl, rfl, rfl⟩ := outcome_inj hn
    refine hsame (.refl m) ?_
    split
    · exact Exec.Going.timeout (e := e) hp t
    · exact hp
  | joinPoll e t b =>
    obtain ⟨rfl, rfl, rfl⟩ := outcome_inj hn
    refine hsame (.refl m) ?_
    cases m.box b with
    | none => exact hp
    | some rc =>
      simp only
      split
      · exact Exec.Going.ok (e := e) hp t
      · exact Exec.Going.failed (e := e) hp t
  | supJoinedLoad e =>
    obtain ⟨rfl, rfl, rfl⟩ := outcome_inj hn
    refine hsame (.refl m) ?_
    split
    · exact hp
    · exact Exec.Going.teardown (e := e) hp
  | supSetJoined e =>
    obtain ⟨rfl, rfl, rfl⟩ := outcome_inj hn
    refine hsame { Ctl.Agrees.refl m with } ?_
    exact Exec.Going.teardown (e := e) hp
  | anyQuarantined e i =>
    simp only [ShutPc.next] at hn
    split at hn <;> cases hn
    · refine hsame (.refl m) ?_
      split <;> exact hp
    · exact hsame (.refl m) hp
  | closeFrames e =>
    obtain ⟨rfl, rfl, rfl⟩ := outcome_inj hn
    exact hsame { Ctl.Agrees.refl m with } (Exec.Going.workerHead (e := e) hp 0)
  | drainState e i | drainClock e i =>
    obtain ⟨rfl, rfl, rfl⟩ := outcome_inj hn
    refine hsame (.refl m) ?_
    split <;> first | exact hp | exact Exec.Going.workerHead (e := e) hp _
  | lateStarting e i =>
    obtain ⟨rfl, rfl, rfl⟩ := outcome_inj hn
    refine hsame (.refl m) ?_
    split
    · exact hp
    · exact Exec.Going.lateHead (e := e) hp _
  | lateStore e i =>
    obtain ⟨rfl, rfl, rfl⟩ := outcome_inj hn
    exact hsame { Ctl.Agrees.refl m with } (Exec.Going.lateHead (e := e) hp _)
  | _ =>
    obtain ⟨rfl, rfl, rfl⟩ := outcome_inj hn
    refine hsame { Ctl.Agrees.refl m with } ?_
    first
      | exact hp
      | (split <;> first | exact hp | (split <;> exact hp))

end Own

/-! ## All calls together -/

section Run

variable {c : Config} {few : Prop} {s s' : Pool} {O : Nat → Prop}

/-- Nobody calls `awp_pool_destroy`, except from inside a callback; the parties in `O` call
`awp_pool_shutdown` from outside. -/
def Outside (O : Nat → Prop) (_ : Pool) : Label → Prop
  | .destroy _ => False
  | .shutdown n tls => O n → tls = false
  | _ => True

/-- The same, and the count of aborts fits an `int`. -/
def OutsideFew (O : Nat → Prop) (s : Pool) (e : Label) : Prop := Outside O s e ∧ Few s e

structure Pool.Decided (O : Nat → Prop) (few : Prop) (s : Pool) : Prop where
  alone : ∀ n p, (s.thr (.api n)).pc ≠ .destroy p
  calls : ∀ n p, (s.thr (.api n)).pc = .shut p → p.Judges few s.ctl ∨ (¬ O n ∧ p = .done edeadlk)
  recorded : s.ctl.Recorded few
  fits : few → s.ctl.shutdownAborts < 2 ^ 31

/-- A call that is not the executor learns nothing from a pool that has not stopped. -/
theorem ShutPc.Judges.observer {m m' : Ctl} {p : ShutPc} (hp : p.Judges few m) (hx : p.executes = false)
    (hl : m.lifecycle ≠ .stopped) : p.Judges few m' := by
  cases p with
  | start | cas life | waitLock | waitInc | waitLife | waitBlocked ticket | waitRelock => trivial
  | obsAborts | waitAborts => exact absurd hp hl
  | obsQuarantined | waitQuarantined | waitDec v | waitBroadcast v | waitUnlock v | done v =>
    exact absurd hp.1 hl
  | _ => cases hx

theorem HelperPc.next_agrees {m m' : Ctl} {ended : Agent → Bool} {j : Nat} {x : Choice} {k : Cmd}
    {p p' : HelperPc} (hn : p.next m ended j x = some (m', p', k)) : m.Agrees m' := by
  rw [HelperPc.next_frame hn]
  exact { Ctl.Agrees.refl m with }

/-- Once everything has been joined, no worker moves. -/
theorem Sound.worker_done (h : Sound c s) (hset : s.ctl.Settled c) {i j : Nat} {p : WorkerPc}
    (hi : i < c.nWorkers) (hj : j < (s.ctl.w i).spawned)
    (hp : (s.thr (.worker i j)).pc = .worker p) : p = .returned := by
  have hpost := h.custody.post i
  have hend : s.crew.stage i j = .ended := by
    have hcur := hpost.after _ (hpost.joined (hset.2 i hi))
    rcases Nat.lt_or_eq_of_le (show j ≤ (s.ctl.w i).cur by rw [Worker.cur]; omega) with hlt | rfl
    · exact (hpost.past j hlt).1
    · exact hcur
  simp only [Pool.crew, hp, Pc.stage] at hend
  cases p <;> first | rfl | cases hend

/-- Nor does the supervisor. -/
theorem Sound.sup_done (h : Sound c s) (hset : s.ctl.Settled c) {p : SupPc}
    (hex : c.enableSupervisor = true) (hp : (s.thr .sup).pc = .sup p) : p = .returned := by
  rcases h.custody.supDone hset.1 with he | hr
  · cases he.symm.trans hex
  · simpa only [Pool.crew, hp, Pc.asSup] using hr

/-- After a step of somebody who is not a shutdown call. -/
theorem Pool.Decided.onward (h : s.Decided O few) (hs : Sound c s) {m : Ctl} {b : Bool}
    (hon : s.ctl.Onward b m) (hb : few → b = true → s.ctl.shutdownAborts + 1 < 2 ^ 31)
    (hlife : m.lifecycle = s.ctl.lifecycle) (hset : ¬ s.ctl.Settled c) :
    m.Recorded few ∧ ∀ n p, (s.thr (.api n)).pc = .shut p → p.Judges few m ∨ (¬ O n ∧ p = .done edeadlk) := by
  have hstop : s.ctl.lifecycle = .stopped → s.ctl.quarantined = true := fun hl ↦
    (hs.custody.stopped hl).resolve_right hset
  have hle := fun hf ↦ (hon.fits (hb hf) (h.fits hf)).1
  refine ⟨fun hl _ hf ↦ ?_, fun n p hp ↦ (h.calls n p hp).imp_left fun hj ↦ ?_⟩
  · have hl₀ := hlife.symm.trans hl
    have hpos := h.recorded hl₀ (hstop hl₀) hf
    have hle := hle hf
    omega
  · refine hj.onward hon hle hlife hstop fun hf ↦ ?_
    exact (hs.known n p (by rw [hp]; rfl) _ hf).resolve_right hset

/-- After a step of a shutdown call, for the others. -/
theorem Pool.Decided.settles (h : s.Decided O few) (hs : Sound c s) {m : Ctl} {n : Nat} {p : ShutPc}
    (hp : (s.thr (.api n)).pc = .shut p) (hm : Settles s.ctl m p) {n' : Nat} (hne : n' ≠ n)
    {q : ShutPc} (hq : (s.thr (.api n')).pc = .shut q) : q.Judges few m ∨ (¬ O n' ∧ q = .done edeadlk) := by
  refine (h.calls n' q hq).imp_left fun hj ↦ ?_
  rcases hm with ha | ⟨hl, hx⟩
  · exact hj.agrees ha
  · refine hj.observer ?_ hl
    by_contra hqx
    have hexec := hs.executes n' q (by rw [hq]; rfl) (by simpa using hqx)
    rcases hx with hx | ⟨life, rfl, hlife⟩
    · have hme := hs.executes n p (by rw [hp]; rfl) hx
      rw [hexec, Option.some.injEq, Agent.api.injEq] at hme
      exact hne hme
    · have hopen := hs.known n _ (by rw [hp]; rfl) _ (List.mem_singleton_self (Fact.open_ life))
      rw [hs.custody.running (hlife ▸ hopen)] at hexec
      cases hexec

theorem Pool.Decided.init (now : Nat) : (Pool.init c now).Decided O few where
  alone _ _ := nofun
  calls _ _ h := by cases h
  recorded h := by cases h
  fits _ := Nat.two_pow_pos 31

/-- **Step lemma.** -/
theorem Pool.Decided.step (h : s.Decided O few) (hs : Sound c s) {e : Label} (he : Outside O s e)
    (hfew : few → Few s e) (hst : s.step c e = some s') : s'.Decided O few := by
  have hfits : few → s'.ctl.shutdownAborts < 2 ^ 31 := fun hf ↦
    ((Pool.step_onward hs.seated hst).fits (hfew hf) (h.fits hf)).2
  -- a call that stands where it stood
  have hstill : ∀ {n : Nat} {pc : Pc}, s'.thr (.api n) = s.thr (.api n) →
      (s'.thr (.api n)).pc = pc → (s.thr (.api n)).pc = pc := fun hthr hp ↦ by rwa [hthr] at hp
  cases Pool.step_act hs.seated hst with
  | tick t =>
    have ha : s.ctl.Agrees { s.ctl with clock := s.ctl.clock + t } := { Ctl.Agrees.refl s.ctl with }
    exact ⟨h.alone, fun n p hp ↦ (h.calls n p hp).imp_left (·.agrees ha), h.recorded.agrees ha,
      hfits⟩
  | destroyed n hidle => exact he.elim
  | access a x spurious r l hact hstep =>
    exact ⟨fun n p hp ↦ h.alone n p ((Pool.accessed_pc).symm.trans hp),
      fun n p hp ↦ h.calls n p ((Pool.accessed_pc).symm.trans hp), h.recorded, hfits⟩
  | call n pool f hidle | api n x hp hn hk =>
    refine ⟨fun n' q hq ↦ ?_, fun n' q hq ↦ ?_, h.recorded, hfits⟩ <;>
      by_cases hne : Agent.api n' = .api n
    · rw [hne, Pool.moved_self] at hq
      cases hq
    · exact h.alone n' q (hstill (Pool.moved_of_ne hne) hq)
    · rw [hne, Pool.moved_self] at hq
      cases hq
    · exact h.calls n' q (hstill (Pool.moved_of_ne hne) hq)
  | shutdown n tls hidle =>
    refine ⟨fun n' q hq ↦ ?_, fun n' q hq ↦ ?_, h.recorded, hfits⟩ <;>
      by_cases hne : Agent.api n' = .api n
    · rw [hne, Pool.moved_self] at hq
      cases hq
    · exact h.alone n' q (hstill (Pool.moved_of_ne hne) hq)
    · rw [Agent.api.injEq] at hne
      subst hne
      rw [Pool.moved_self] at hq
      cases tls with
      | true =>
        cases hq
        exact Or.inr ⟨fun hO ↦ Bool.false_ne_true (he hO).symm, rfl⟩
      | false =>
        cases hq
        exact Or.inl trivial
    · exact h.calls n' q (hstill (Pool.moved_of_ne hne) hq)
  | shut n x hw hp hn hk =>
    rename_i wrap p p' m k sh l
    cases hw with
    | destroy => exact absurd hp (h.alone n _)
    | shut =>
      have hj : p.Judges few s.ctl := by
        refine (h.calls n p hp).resolve_right ?_
        rintro ⟨-, rfl⟩
        cases hn
      have hcas : ∀ life, p = .cas life → life ≠ .stopped := by
        rintro life rfl rfl
        have hopen := hs.known n _ (by rw [hp]; rfl) _ (List.mem_singleton_self (Fact.open_ .stopped))
        rcases hopen with ho | ho <;> cases ho
      have hrecords : few → p.records = true → s.ctl.shutdownAborts + 1 < 2 ^ 31 := fun hf hr ↦
        hfew hf (by rwa [Pool.records, hp])
      obtain ⟨hown, hrec, hset⟩ := hj.next h.recorded h.fits hrecords hcas hn
      refine ⟨fun n' q hq ↦ ?_, fun n' q hq ↦ ?_, hrec, hfits⟩ <;>
        by_cases hne : Agent.api n' = .api n
      · rw [hne, Pool.moved_self] at hq
        cases hq
      · exact h.alone n' q (hstill (Pool.moved_of_ne hne) hq)
      · rw [hne, Pool.moved_self] at hq
        cases hq
        exact Or.inl hown
      · exact h.settles hs hp hset (by simpa using hne) (hstill (Pool.moved_of_ne hne) hq)
  | destroy n x hp hn hfrom hto hframe hk => exact absurd hp (h.alone n _)
  | worker i j x hi hj hp hn hk =>
    have hset : ¬ s.ctl.Settled c := fun hset ↦ by
      rw [hs.worker_done hset hi hj hp] at hn
      cases hn
    obtain ⟨hrec, hcalls⟩ := h.onward hs (WorkerPc.next_onward hn) (by simp)
      (WorkerPc.next_lifecycle hn) hset
    exact ⟨fun n q hq ↦ h.alone n q (hstill (Pool.moved_of_ne (by simp)) hq),
      fun n q hq ↦ hcalls n q (hstill (Pool.moved_of_ne (by simp)) hq), hrec, hfits⟩
  | sup x hen hp hn hk =>
    have hset : ¬ s.ctl.Settled c := fun hset ↦ by
      rw [hs.sup_done hset hen hp] at hn
      cases hn
    obtain ⟨hrec, hcalls⟩ := h.onward hs (SupPc.next_onward hn)
      (fun hf hr ↦ hfew hf (by rwa [Pool.records, hp])) (SupPc.next_lifecycle hn) hset
    exact ⟨fun n q hq ↦ h.alone n q (hstill (Pool.moved_of_ne (by simp)) hq),
      fun n q hq ↦ hcalls n q (hstill (Pool.moved_of_ne (by simp)) hq), hrec, hfits⟩
  | helper j x hh hp hn hk =>
    have ha := HelperPc.next_agrees hn
    exact ⟨fun n q hq ↦ h.alone n q (hstill (Pool.moved_of_ne (by simp)) hq),
      fun n q hq ↦ (h.calls n q (hstill (Pool.moved_of_ne (by simp)) hq)).imp_left (·.agrees ha),
      h.recorded.agrees ha, hfits⟩

theorem Pool.Decided.run {now : Nat} {ok : Pool → Label → Prop} (hok : ∀ s e, ok s e → Outside O s e)
    (hfew : few → ∀ s e, ok s e → Few s e) (hrun : Steps (Pool.step c) ok (Pool.init c now) s) :
    s.Decided O few :=
  hrun.invariant_under (P := Pool.Decided O few) (fun _ ht ↦ Sound.run ht)
    (fun _ _ _ hs _ h he hst ↦ h.step hs (hok _ _ he) (fun hf ↦ hfew hf _ _ he) hst) (.init now)

/-- **Shutdown results.** Let the parties in `O` call `awp_pool_shutdown` from outside callbacks, and
nobody `awp_pool_destroy` but callbacks, and let fewer than `2 ^ 31` aborts be recorded.  Those of
them that have returned either all report 0 or all a positive value; and where they report 0 the pool
is not quarantined, no abort is on record, and every worker thread and the supervisor have been
joined. -/
theorem shutdown_results {now : Nat} (hrun : Steps (Pool.step c) (OutsideFew O) (Pool.init c now) s)
    {n n' : Nat} {v v' : Int} (hn : O n) (hv : (s.thr (.api n)).pc = .shut (.done v))
    (hn' : O n') (hv' : (s.thr (.api n')).pc = .shut (.done v')) :
    ((v = 0 ∧ v' = 0) ∨ (0 < v ∧ 0 < v')) ∧
      (v = 0 → s.ctl.quarantined = false ∧ s.ctl.shutdownAborts = 0 ∧
        (c.enableSupervisor = true → s.ctl.joins .sup = 1) ∧
        ∀ i < c.nWorkers, ∀ k < (s.ctl.w i).spawned, s.ctl.joins (.worker i k) = 1) := by
  have hs := Sound.run hrun
  have hd : s.Decided O True := .run (fun _ _ h ↦ h.1) (fun _ _ _ h ↦ h.2) hrun
  have hverdict : ∀ {n : Nat} {v : Int}, O n → (s.thr (.api n)).pc = .shut (.done v) →
      Verdict True s.ctl v := fun hO hp ↦ (hd.calls _ _ hp).resolve_right fun ⟨hno, _⟩ ↦ hno hO
  obtain ⟨hstop, -, hone⟩ := hverdict hn hv
  obtain ⟨-, -, htwo⟩ := hverdict hn' hv'
  refine ⟨?_, fun hz ↦ ?_⟩
  · rcases hone trivial with ⟨h0, hc⟩ | ⟨hpos, hc⟩ <;>
      rcases htwo trivial with ⟨h0', hc'⟩ | ⟨hpos', hc'⟩
    · exact Or.inl ⟨h0, h0'⟩
    · exact absurd hc hc'
    · exact absurd hc' hc
    · exact Or.inr ⟨hpos, hpos'⟩
  · have hc : s.ctl.Clean := by
      rcases hone trivial with ⟨-, hc⟩ | ⟨hpos, -⟩
      · exact hc
      · omega
    have hset : s.ctl.Settled c := (hs.custody.stopped hstop).resolve_left (by rw [hc.1]; decide)
    refine ⟨hc.1, hc.2, fun he ↦ hs.custody.supJoined hset.1 he, fun i hi k hk ↦ ?_⟩
    have hpost := hs.custody.post i
    rcases Nat.lt_or_eq_of_le (show k ≤ (s.ctl.w i).cur by rw [Worker.cur]; omega) with hlt | rfl
    · exact (hpost.past k hlt).2
    · exact hpost.joined (hset.2 i hi)

end Run

instance {O : Nat → Prop} [DecidablePred O] (s : Pool) : (e : Label) → Decidable (Outside O s e)
  | .destroy _ => inferInstanceAs (Decidable False)
  | .shutdown n tls => inferInstanceAs (Decidable (O n → tls = false))
  | .tick _ | .call .. | .step .. => inferInstanceAs (Decidable True)

instance {O : Nat → Prop} [DecidablePred O] (s : Pool) (e : Label) : Decidable (OutsideFew O s e) :=
  inferInstanceAs (Decidable (Outside O s e ∧ (s.records e = true → s.ctl.shutdownAborts + 1 < 2 ^ 31)))

/-- Parties 0 and 1 shut the pool down; 0 comes first, and its helper joins the worker in time. -/
def shutdownTwice : List Label :=
  [.shutdown 0 false, .shutdown 1 false] ++ turns (.api 0) 6 ++ turns (.api 1) 4 ++
    turns (.api 0) 18 ++ turns (.worker 0 0) 10 ++ turns (.api 0) 6 ++ turns (.helper 0) 2 ++
    turns (.api 0) 21 ++ turns (.api 1) 8

theorem shutdown_results_twice : ∃ s : Pool,
    exec (guarded (Pool.step .small) (OutsideFew fun _ ↦ True)) (Pool.init .small 0) shutdownTwice =
      some s ∧
    (s.thr (.api 0)).pc = .shut (.done 0) ∧ (s.thr (.api 1)).pc = .shut (.done 0) ∧
    s.ctl.joins (.worker 0 0) = 1 := by
  have hrun : (exec (guarded (Pool.step .small) (OutsideFew fun _ ↦ True)) (Pool.init .small 0)
      shutdownTwice).any (fun s ↦ decide ((s.thr (.api 0)).pc = .shut (.done 0) ∧
        (s.thr (.api 1)).pc = .shut (.done 0) ∧ (s.ctl.w 0).spawned = 1)) = true := by
    decide +kernel
  obtain ⟨s, hexec, hend⟩ := exec_any hrun
  obtain ⟨h₀, h₁, hone⟩ := of_decide_eq_true hend
  have hres := shutdown_results (exec_guarded_steps hexec) trivial h₀ trivial h₁
  exact ⟨s, hexec, h₀, h₁, (hres.2 rfl).2.2.2 0 (by decide) 0 (by rw [hone]; decide)⟩

end Awp
