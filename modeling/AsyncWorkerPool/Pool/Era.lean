import AsyncWorkerPool.Pool.Closure

/-!
# Era — what a shutdown call knows of the lifecycle

The executor alone takes the pool on, from `QUIESCING` to `DRAINING` to `STOPPED`, and the others
read `STOPPED` before they report anything.  So each location goes with at most one value of the
lifecycle, and a pool that has stopped stays so.
-/

open Foundation

namespace Awp

/-- The lifecycle that a call knows to be current where it stands. -/
def ShutPc.era : ShutPc → Option Life
  | .start | .cas _ | .waitLock | .waitInc | .waitLife | .waitBlocked _ | .waitRelock => none
  | .quiesceLock | .quiesceBroadcast | .quiesceUnlock | .now | .activeLoop _ | .activeClock _
  | .activeTest _ | .timeoutClose _ _ | .supStop _ | .lifeLock _ false | .lifeStore _ false =>
    some .quiescing
  | .mark _ .active | .markFrames _ .active | .noteAbort _ .active => some .quiescing
  | .obsAborts | .obsQuarantined | .waitAborts | .waitQuarantined | .waitDec _ | .waitBroadcast _
  | .waitUnlock _ | .done _ | .lifeBroadcast _ true | .lifeUnlock _ true | .tailAborts _
  | .tailQuarantined => some .stopped
  | _ => some .draining

/-- `awp_pool_destroy` has seen the pool stopped, or stopped it. -/
def DestroyPc.stopped : DestroyPc → Bool
  | .cas | .lifeLoad | .shut _ | .refused => false
  | _ => true

def ShutPc.Dated (m : Ctl) (p : ShutPc) : Prop := ∀ life, p.era = some life → m.lifecycle = life

section Own

variable {c : Config} {m m' : Ctl} {p p' : ShutPc} {active : Int} {me : Agent} {l : Loc Nat Nat}
  {x : Choice} {k : Cmd} {e : Exec}

theorem Exec.teardown_era (e : Exec) : e.teardown.era = some .draining := by
  rw [Exec.teardown]
  split <;> rfl

theorem Exec.workerHead_era (e : Exec) (i : Nat) : (e.workerHead c i).era = some .draining := by
  rw [Exec.workerHead]
  split <;> rfl

theorem Exec.lateHead_era (e : Exec) (i : Nat) : (e.lateHead c i).era = some .draining := by
  rw [Exec.lateHead]
  split <;> rfl

theorem MarkFor.after_era (e : Exec) (v : MarkFor) : (v.after e).era = (ShutPc.markFrames e v).era := by
  cases v <;> rfl

theorem MarkFor.noted_era (e e' : Exec) (v : MarkFor) :
    (v.noted e).era = (ShutPc.noteAbort e' v).era := by
  cases v <;> rfl

/-- A step leaves the era, learns one, or makes one. -/
theorem ShutPc.next_era (hn : p.next c m active me l x = some (m', p', k)) :
    p'.era = none ∨ (p'.era = p.era ∧ m'.lifecycle = m.lifecycle) ∨ p'.era = some m'.lifecycle := by
  have hlock : ∀ {m₁ : Ctl}, m.lockLife me = some m₁ → m₁.lifecycle = m.lifecycle := fun h ↦ by
    rw [(Ctl.lockLife_eq h).2]
  cases p with
  | start =>
    obtain ⟨rfl, rfl, rfl⟩ := outcome_inj hn
    cases hl : m.lifecycle
    · exact Or.inl rfl
    · exact Or.inl rfl
    · exact Or.inl rfl
    · exact Or.inl rfl
    · exact Or.inr (Or.inr rfl)
  | cas life =>
    simp only [ShutPc.next] at hn
    split at hn <;> cases hn
    · exact Or.inr (Or.inr rfl)
    · exact Or.inl rfl
  | waitLock | waitRelock =>
    simp only [ShutPc.next, Option.map_eq_some_iff, Prod.mk.injEq] at hn
    obtain ⟨m₁, -, -, rfl, -⟩ := hn
    exact Or.inl rfl
  | quiesceLock =>
    simp only [ShutPc.next, Option.map_eq_some_iff, Prod.mk.injEq] at hn
    obtain ⟨m₁, hm, rfl, rfl, -⟩ := hn
    exact Or.inr (Or.inl ⟨rfl, hlock hm⟩)
  | lifeLock e last =>
    simp only [ShutPc.next, Option.map_eq_some_iff, Prod.mk.injEq] at hn
    obtain ⟨m₁, hm, rfl, rfl, -⟩ := hn
    exact Or.inr (Or.inl ⟨by cases last <;> rfl, hlock hm⟩)
  | waitLife =>
    simp only [ShutPc.next] at hn
    split at hn <;> cases hn
    · rename_i hl
      exact Or.inr (Or.inr (by rw [hl]; rfl))
    · exact Or.inl rfl
  | waitBlocked ticket =>
    simp only [ShutPc.next] at hn
    split at hn <;> cases hn
    exact Or.inl rfl
  | waitInc =>
    obtain ⟨rfl, rfl, rfl⟩ := outcome_inj hn
    exact Or.inl rfl
  | lifeStore e last =>
    obtain ⟨rfl, rfl, rfl⟩ := outcome_inj hn
    cases last <;> exact Or.inr (Or.inr rfl)
  | lifeBroadcast e last | lifeUnlock e last =>
    obtain ⟨rfl, rfl, rfl⟩ := outcome_inj hn
    cases last <;> exact Or.inr (Or.inl ⟨rfl, rfl⟩)
  | timeoutClose e i | closeAll e i | lateClose e i =>
    right; left
    simp only [ShutPc.next] at hn
    split at hn
    · obtain ⟨rfl, rfl | rfl⟩ := closeCall_cases hn <;> exact ⟨rfl, rfl⟩
    · cases hn
      exact ⟨rfl, rfl⟩
  | stopClose e i =>
    obtain ⟨rfl, rfl | rfl⟩ := closeCall_cases hn <;> exact Or.inr (Or.inl ⟨rfl, rfl⟩)
  | drainPop e i =>
    right; left
    cases l with
    | idle =>
      obtain ⟨rfl, rfl, rfl⟩ := outcome_inj hn
      exact ⟨rfl, rfl⟩
    | ret v =>
      cases v with
      | popped q out => cases out <;> cases hn <;> exact ⟨by first | rfl | exact Exec.workerHead_era _ _, rfl⟩
      | rc n =>
        obtain ⟨rfl, rfl, rfl⟩ := outcome_inj hn
        exact ⟨Exec.workerHead_era _ _, rfl⟩
      | _ => cases hn
    | _ => cases hn
  | joinCreate e t =>
    right; left
    cases x with
    | go =>
      obtain ⟨rfl, rfl, rfl⟩ := outcome_inj hn
      exact ⟨rfl, rfl⟩
    | rc n =>
      simp only [ShutPc.next] at hn
      split at hn <;> cases hn
      exact ⟨by cases t <;> rfl, rfl⟩
    | _ => cases hn
  | joinClock e t | joinPollClock e t b =>
    obtain ⟨rfl, rfl, rfl⟩ := outcome_inj hn
    refine Or.inr (Or.inl ⟨?_, rfl⟩)
    split <;> cases t <;> rfl
  | joinPoll e t b =>
    obtain ⟨rfl, rfl, rfl⟩ := outcome_inj hn
    refine Or.inr (Or.inl ⟨?_, rfl⟩)
    cases m.box b with
    | none => rfl
    | some rc =>
      simp only
      split <;> cases t <;> rfl
  | mark e v =>
    obtain ⟨rfl, rfl, rfl⟩ := outcome_inj hn
    cases v <;> exact Or.inr (Or.inl ⟨rfl, rfl⟩)
  | markFrames e v =>
    obtain ⟨rfl, rfl, rfl⟩ := outcome_inj hn
    exact Or.inr (Or.inl ⟨v.after_era e, rfl⟩)
  | noteAbort e v =>
    obtain ⟨rfl, rfl, rfl⟩ := outcome_inj hn
    exact Or.inr (Or.inl ⟨v.noted_era _ _, rfl⟩)
  | supJoinedLoad e =>
    obtain ⟨rfl, rfl, rfl⟩ := outcome_inj hn
    refine Or.inr (Or.inl ⟨?_, rfl⟩)
    split
    · rfl
    · exact e.teardown_era
  | supSetJoined e =>
    obtain ⟨rfl, rfl, rfl⟩ := outcome_inj hn
    exact Or.inr (Or.inl ⟨e.teardown_era, rfl⟩)
  | closeFrames e =>
    obtain ⟨rfl, rfl, rfl⟩ := outcome_inj hn
    exact Or.inr (Or.inl ⟨e.workerHead_era 0, rfl⟩)
  | drainState e i | drainClock e i =>
    obtain ⟨rfl, rfl, rfl⟩ := outcome_inj hn
    refine Or.inr (Or.inl ⟨?_, rfl⟩)
    split <;> first | rfl | exact e.workerHead_era _
  | lateStarting e i =>
    obtain ⟨rfl, rfl, rfl⟩ := outcome_inj hn
    refine Or.inr (Or.inl ⟨?_, rfl⟩)
    split
    · rfl
    · exact e.lateHead_era _
  | lateStore e i =>
    obtain ⟨rfl, rfl, rfl⟩ := outcome_inj hn
    exact Or.inr (Or.inl ⟨e.lateHead_era _, rfl⟩)
  | anyQuarantined e i =>
    simp only [ShutPc.next] at hn
    split at hn <;> cases hn
    · refine Or.inr (Or.inl ⟨?_, rfl⟩)
      split <;> rfl
    · exact Or.inr (Or.inl ⟨rfl, rfl⟩)
  | done rc => cases hn
  | activeTest d =>
    obtain ⟨rfl, rfl, rfl⟩ := outcome_inj hn
    refine Or.inr (Or.inl ⟨?_, rfl⟩)
    split <;> rfl
  | _ =>
    obtain ⟨rfl, rfl, rfl⟩ := outcome_inj hn
    refine Or.inr (Or.inl ⟨?_, rfl⟩)
    first | rfl | (split <;> first | rfl | (split <;> rfl))

theorem ShutPc.Dated.next (h : p.Dated m) (hn : p.next c m active me l x = some (m', p', k)) :
    p'.Dated m' := by
  intro life hlife
  rcases ShutPc.next_era hn with hnone | ⟨hsame, hkeep⟩ | hnow
  · rw [hnone] at hlife
    cases hlife
  · exact hkeep.trans (h life (hsame.symm.trans hlife))
  · exact Option.some.inj (hnow.symm.trans hlife)

end Own

/-! ## All calls together -/

section Run

variable {c : Config} {s s' : Pool}

/-- Every call is right about the lifecycle; but one from inside a callback has been turned away
without a look at it. -/
structure Pool.Dated (s : Pool) : Prop where
  calls : ∀ n p, (s.thr (.api n)).pc = .shut p → p.Dated s.ctl ∨ p = .done edeadlk
  nested : ∀ n p, (s.thr (.api n)).pc = .destroy (.shut p) → p.Dated s.ctl
  after : ∀ n p, (s.thr (.api n)).pc = .destroy p → p.stopped = true → s.ctl.lifecycle = .stopped

theorem ShutPc.era_executes {p : ShutPc} {life : Life} (h : p.era = some life) :
    life ≠ .init ∧ life ≠ .running ∧ (life ≠ .stopped → p.executes = true) := by
  have hall : ∀ life', p.era = some life' → life' = life := fun life' h' ↦
    Option.some.inj (h'.symm.trans h)
  cases p with
  | lifeLock e last | lifeStore e last | lifeBroadcast e last | lifeUnlock e last =>
    cases last <;> rw [← hall _ rfl] <;> exact ⟨nofun, nofun, fun _ ↦ rfl⟩
  | mark e v | markFrames e v | noteAbort e v =>
    cases v <;> rw [← hall _ rfl] <;> exact ⟨nofun, nofun, fun _ ↦ rfl⟩
  | start | cas | waitLock | waitInc | waitLife | waitBlocked | waitRelock => cases h
  | _ =>
    rw [← hall _ rfl]
    exact ⟨nofun, nofun, fun hne ↦ by first | rfl | exact absurd rfl hne⟩

/-- A step of one call leaves the others right. -/
theorem ShutPc.Dated.other (hs : Sound c s) {n n' : Nat} (hne : n' ≠ n) {q q' r : ShutPc} {m : Ctl}
    {active : Int} {l : Loc Nat Nat} {x : Choice} {k : Cmd}
    (hq : (s.thr (.api n)).pc.shut? = some q) (hr : (s.thr (.api n')).pc.shut? = some r)
    (hdq : q.Dated s.ctl) (hdr : r.Dated s.ctl)
    (hn : q.next c s.ctl active (.api n) l x = some (m, q', k)) : r.Dated m := by
  intro life hlife
  have hold := hdr life hlife
  obtain ⟨hinit, hrunning, hexec⟩ := ShutPc.era_executes hlife
  -- both would be the executor
  have hsole : q.executes = true → life ≠ .stopped → m.lifecycle = life := fun hx hstop ↦ by
    have h₁ := hs.executes n q hq hx
    have h₂ := hs.executes n' r hr (hexec hstop)
    rw [h₁, Option.some.injEq, Agent.api.injEq] at h₂
    exact absurd h₂.symm hne
  rcases ShutPc.next_lifecycle hn with hkeep | ⟨life', rfl, hlife', -⟩ | ⟨e, rfl, -⟩ | ⟨e, rfl, -⟩
  · exact hkeep.trans hold
  · have hopen := hs.known n _ hq _ (List.mem_singleton_self (Fact.open_ life'))
    rw [← hlife', hold] at hopen
    rcases hopen with ho | ho
    · exact absurd ho hinit
    · exact absurd ho hrunning
  · exact hsole rfl fun hstop ↦ by cases (hold.trans hstop).symm.trans (hdq _ rfl)
  · exact hsole rfl fun hstop ↦ by cases (hold.trans hstop).symm.trans (hdq _ rfl)

/-- **A pool that has stopped stays so**, as far as a call is concerned that is right about it. -/
theorem ShutPc.Dated.stopped (hs : Sound c s) {n : Nat} {q q' : ShutPc} {m : Ctl} {active : Int}
    {l : Loc Nat Nat} {x : Choice} {k : Cmd} (hq : (s.thr (.api n)).pc.shut? = some q)
    (hdq : q.Dated s.ctl) (hn : q.next c s.ctl active (.api n) l x = some (m, q', k))
    (hstop : s.ctl.lifecycle = .stopped) : m.lifecycle = .stopped := by
  rcases ShutPc.next_lifecycle hn with hkeep | ⟨life', rfl, hlife', -⟩ | ⟨e, rfl, -⟩ | ⟨e, -, hd⟩
  · exact hkeep.trans hstop
  · have hopen := hs.known n _ hq _ (List.mem_singleton_self (Fact.open_ life'))
    rw [← hlife', hstop] at hopen
    rcases hopen with ho | ho <;> cases ho
  · cases hstop.symm.trans (hdq _ rfl)
  · exact hd

theorem DestroyPc.next_stopped {p p' : DestroyPc} {m m' : Ctl} {d : Dat} {me : Agent}
    {l : Loc Nat Nat} {x : Choice} {k : Cmd} (hn : p.next c m d me l x = some (m', p', k))
    (hp' : p'.stopped = true) :
    p.stopped = true ∨ m.lifecycle = .stopped ∨ ∃ v, p = .shut (.done v) := by
  cases p with
  | cas =>
    simp only [DestroyPc.next] at hn
    split at hn <;> cases hn <;> cases hp'
  | lifeLoad =>
    obtain ⟨rfl, rfl, rfl⟩ := outcome_inj hn
    split at hp'
    · rename_i hl
      exact Or.inr (Or.inl hl)
    · cases hp'
  | shut q =>
    by_cases hq : ∃ rc, q = .done rc
    · obtain ⟨rc, rfl⟩ := hq
      exact Or.inr (Or.inr ⟨rc, rfl⟩)
    · rw [DestroyPc.next_shut (fun rc hrc ↦ hq ⟨rc, hrc⟩), Option.map_eq_some_iff] at hn
      obtain ⟨⟨m₁, q', k₁⟩, hn, he⟩ := hn
      cases he
      cases hp'
  | refused => cases hn
  | _ => exact Or.inl rfl

theorem Pool.Dated.init (now : Nat) : (Pool.init c now).Dated where
  calls _ _ h := by cases h
  nested _ _ h := by cases h
  after _ _ h := by cases h

/-- **Step lemma.** -/
theorem Pool.Dated.step (h : s.Dated) (hs : Sound c s) {e : Label} (hst : s.step c e = some s') :
    s'.Dated := by
  -- where the lifecycle is left alone, so is every call that stands where it stood
  have hkeep : ∀ {n : Nat}, s'.ctl.lifecycle = s.ctl.lifecycle →
      (s'.thr (.api n)).pc = (s.thr (.api n)).pc →
      (∀ p, (s'.thr (.api n)).pc = .shut p → p.Dated s'.ctl ∨ p = .done edeadlk) ∧
      (∀ p, (s'.thr (.api n)).pc = .destroy (.shut p) → p.Dated s'.ctl) ∧
      ∀ p, (s'.thr (.api n)).pc = .destroy p → p.stopped = true → s'.ctl.lifecycle = .stopped := by
    intro n hlife hthr
    rw [hthr, hlife]
    exact ⟨fun p hp ↦ (h.calls n p hp).imp_left fun hd life hl ↦ hlife.trans (hd life hl),
      fun p hp life hl ↦ hlife.trans (h.nested n p hp life hl), h.after n⟩
  suffices hall : ∀ n,
      (∀ p, (s'.thr (.api n)).pc = .shut p → p.Dated s'.ctl ∨ p = .done edeadlk) ∧
      (∀ p, (s'.thr (.api n)).pc = .destroy (.shut p) → p.Dated s'.ctl) ∧
      ∀ p, (s'.thr (.api n)).pc = .destroy p → p.stopped = true → s'.ctl.lifecycle = .stopped from
    ⟨fun n ↦ (hall n).1, fun n ↦ (hall n).2.1, fun n ↦ (hall n).2.2⟩
  intro n'
  cases Pool.step_act hs.seated hst with
  | tick t => exact hkeep rfl rfl
  | access a x spurious r l hact hstep => exact hkeep rfl Pool.accessed_pc
  | worker i j x hi hj hp hn hk =>
    exact hkeep (WorkerPc.next_lifecycle hn) (by rw [Pool.moved_of_ne (by simp)])
  | sup x he hp hn hk => exact hkeep (SupPc.next_lifecycle hn) (by rw [Pool.moved_of_ne (by simp)])
  | helper j x hj hp hn hk =>
    exact hkeep (HelperPc.next_lifecycle hn) (by rw [Pool.moved_of_ne (by simp)])
  | call n pool f hidle | api n x hp hn hk =>
    by_cases hne : Agent.api n' = .api n
    · rw [hne, Pool.moved_self]
      exact ⟨by simp, by simp, by simp⟩
    · exact hkeep rfl (by rw [Pool.moved_of_ne hne])
  | shutdown n tls hidle =>
    by_cases hne : Agent.api n' = .api n
    · rw [hne, Pool.moved_self]
      refine ⟨fun p hp ↦ ?_, by simp, by simp⟩
      cases tls <;> cases hp
      · exact Or.inl fun life hl ↦ by cases hl
      · exact Or.inr rfl
    · exact hkeep rfl (by rw [Pool.moved_of_ne hne])
  | destroyed n hidle =>
    by_cases hne : Agent.api n' = .api n
    · rw [hne, Pool.moved_self]
      refine ⟨by simp, by simp, ?_⟩
      rintro p ⟨⟩ ⟨⟩
    · exact hkeep rfl (by rw [Pool.moved_of_ne hne])
  | destroy n x hp hn hfrom hto hframe hk =>
    by_cases hne : Agent.api n' = .api n
    · rw [hne, Pool.moved_self]
      refine ⟨by simp, fun q hq ↦ ?_, fun q hq hstop ↦ ?_⟩
      · rw [Pc.destroy.injEq] at hq
        rw [hto q hq]
        intro life hl
        cases hl
      · rw [Pc.destroy.injEq] at hq
        subst hq
        refine hframe.lifecycle.trans ?_
        rcases DestroyPc.next_stopped hn hstop with hbefore | hl | ⟨v, rfl⟩
        · exact h.after n _ hp hbefore
        · exact hl
        · exact h.nested n _ hp _ rfl
    · exact hkeep hframe.lifecycle (by rw [Pool.moved_of_ne hne])
  | shut n x hw hp hn hk =>
    rename_i wrap q q' m k sh l
    have hshut : (s.thr (.api n)).pc.shut? = some q := by rw [hp, hw.shut?]
    have hdq : q.Dated s.ctl := by
      cases hw with
      | shut =>
        refine (h.calls n q hp).resolve_right ?_
        rintro rfl
        cases hn
      | destroy => exact h.nested n q hp
    by_cases hne : n' = n
    · subst hne
      rw [Pool.moved_self]
      have hnext := hdq.next hn
      cases hw with
      | shut =>
        refine ⟨?_, by simp, by simp⟩
        rintro p ⟨⟩
        exact Or.inl hnext
      | destroy =>
        refine ⟨by simp, ?_, ?_⟩
        · rintro p ⟨⟩
          exact hnext
        · rintro p ⟨⟩ ⟨⟩
    · rw [Pool.moved_of_ne (by simpa using hne)]
      refine ⟨fun r hr ↦ (h.calls n' r hr).imp_left fun hdr ↦ ?_, fun r hr ↦ ?_, fun p hp' hstop ↦ ?_⟩
      · exact hdq.other hs hne hshut (by rw [hr]; rfl) hdr hn
      · exact hdq.other hs hne hshut (by rw [hr]; rfl) (h.nested n' r hr) hn
      · exact hdq.stopped hs hshut hn (h.after n' p hp' hstop)

theorem Pool.Dated.run {ok : Pool → Label → Prop} {now : Nat}
    (hrun : Steps (Pool.step c) ok (Pool.init c now) s) : s.Dated :=
  hrun.invariant_under (P := Pool.Dated) (fun _ ht ↦ Sound.run ht)
    (fun _ _ _ hs _ h _ hst ↦ h.step hs hst) (.init now)

end Run

end Awp
