import AsyncWorkerPool.Pool.Sound

/-!
# Frames — what each program leaves alone

For each program one equation says which control words it may write: `m'` is `m` but for the fields
that are copied from `m'`.  The worker records have an equation of the same kind.
-/

open Foundation

namespace Awp

section Frames

variable {c : Config} {m m' : Ctl} {l : Loc Nat Nat} {x : Choice} {k : Cmd}

/-- A relation between the records of one worker that holds for the record written holds for all. -/
theorem Ctl.setW_all {P : Worker → Worker → Prop} (hrefl : ∀ w, P w w) {m : Ctl} {i : Nat}
    {f : Worker → Worker} (hf : P (m.w i) (f (m.w i))) (j : Nat) : P (m.w j) ((m.setW i f).w j) := by
  by_cases hj : j = i
  · subst hj
    rw [Ctl.setW_self]
    exact hf
  · rw [Ctl.setW_of_ne _ _ hj]
    exact hrefl _

theorem Ctl.lockLife_eq {me : Agent} (h : m.lockLife me = some m') :
    m.lifeMu = none ∧ m' = { m with lifeMu := some me } := by
  simp only [Ctl.lockLife] at h
  split at h
  · rename_i hmu
    exact ⟨hmu, (Option.some.inj h).symm⟩
  · cases h

/-! ## The supervisor -/

def Ctl.SupFrame (m m' : Ctl) : Prop :=
  m' = { m with
    w := m'.w, joins := m'.joins, supervisorPhase := m'.supervisorPhase
    supervisorAlive := m'.supervisorAlive, supervisorStop := m'.supervisorStop
    quarantined := m'.quarantined, framesClosed := m'.framesClosed
    shutdownAborts := m'.shutdownAborts, lifeMu := m'.lifeMu, lifeCv := m'.lifeCv }

def Worker.SupFrame (w w' : Worker) : Prop :=
  w' = { w with
    state := w'.state, stop := w'.stop, joined := w'.joined, lastProgress := w'.lastProgress
    generation := w'.generation, restarts := w'.restarts, spawned := w'.spawned }

theorem SupPc.next_frame {ended : Agent → Bool} {p p' : SupPc}
    (hn : p.next c m ended l x = some (m', p', k)) :
    m.SupFrame m' ∧ ∀ i, (m.w i).SupFrame (m'.w i) := by
  have hset : ∀ i (f : Worker → Worker), (m.w i).SupFrame (f (m.w i)) →
      m.SupFrame (m.setW i f) ∧ ∀ j, (m.w j).SupFrame ((m.setW i f).w j) :=
    fun i f hf ↦ ⟨rfl, Ctl.setW_all (P := Worker.SupFrame) (fun _ ↦ rfl) hf⟩
  cases p with
  | stallDepth r last =>
    have hm : m' = m := by
      cases l <;> simp only [SupPc.next] at hn <;> grind
    rw [hm]
    exact ⟨rfl, fun _ ↦ rfl⟩
  | quarClose r | reclose r | postClose r | failClose r | reopen r =>
    rw [(ringCall_cases hn).1]
    exact ⟨rfl, fun _ ↦ rfl⟩
  | join r =>
    cases x with
    | go | rc n =>
      simp only [SupPc.next] at hn
      split at hn <;> cases hn
      exact ⟨rfl, fun _ ↦ rfl⟩
    | _ => cases hn
  | create r =>
    cases x with
    | go =>
      obtain ⟨rfl, rfl, rfl⟩ := outcome_inj hn
      exact hset _ _ rfl
    | rc n =>
      simp only [SupPc.next] at hn
      split at hn <;> cases hn
      exact ⟨rfl, fun _ ↦ rfl⟩
    | _ => cases hn
  | exitLock =>
    simp only [SupPc.next] at hn
    split at hn <;> cases hn
    exact ⟨rfl, fun _ ↦ rfl⟩
  | returned => cases hn
  | _ =>
    obtain ⟨rfl, rfl, rfl⟩ := outcome_inj hn
    first | exact ⟨rfl, fun _ ↦ rfl⟩ | exact hset _ _ rfl

/-- The supervisor creates the threads of the worker that it restarts. -/
theorem SupPc.next_spawned {ended : Agent → Bool} {p p' : SupPc}
    (hn : p.next c m ended l x = some (m', p', k)) (i : Nat) :
    (m'.w i).spawned = (m.w i).spawned ∨
      ((m'.w i).spawned = (m.w i).spawned + 1 ∧ ∃ r, p = .create r ∧ r.i = i) := by
  have hset : ∀ j (f : Worker → Worker), (f (m.w j)).spawned = (m.w j).spawned →
      ((m.setW j f).w i).spawned = (m.w i).spawned :=
    fun j f hf ↦ Ctl.setW_all (P := fun w w' ↦ w'.spawned = w.spawned) (fun _ ↦ rfl) hf i
  cases p with
  | stallDepth r last =>
    have hm : m' = m := by
      cases l <;> simp only [SupPc.next] at hn <;> grind
    exact Or.inl (by rw [hm])
  | quarClose r | reclose r | postClose r | failClose r | reopen r =>
    exact Or.inl (by rw [(ringCall_cases hn).1])
  | join r =>
    cases x with
    | go | rc n =>
      simp only [SupPc.next] at hn
      split at hn <;> cases hn
      exact Or.inl rfl
    | _ => cases hn
  | create r =>
    cases x with
    | go =>
      obtain ⟨rfl, rfl, rfl⟩ := outcome_inj hn
      by_cases hi : i = r.i
      · subst hi
        rw [Ctl.setW_self]
        exact Or.inr ⟨rfl, r, rfl, rfl⟩
      · rw [Ctl.setW_of_ne _ _ hi]
        exact Or.inl rfl
    | rc n =>
      simp only [SupPc.next] at hn
      split at hn <;> cases hn
      exact Or.inl rfl
    | _ => cases hn
  | exitLock =>
    simp only [SupPc.next] at hn
    split at hn <;> cases hn
    exact Or.inl rfl
  | returned => cases hn
  | _ =>
    obtain ⟨rfl, rfl, rfl⟩ := outcome_inj hn
    first | exact Or.inl rfl | exact Or.inl (hset _ _ rfl)

/-! ## Workers -/

def Ctl.WorkerFrame (i : Nat) (m m' : Ctl) : Prop :=
  (m' = { m with
    w := m'.w, quarantined := m'.quarantined, framesClosed := m'.framesClosed
    shutdownAborts := m'.shutdownAborts, processErrors := m'.processErrors }) ∧
  ∀ j ≠ i, m'.w j = m.w j

def Worker.OwnFrame (w w' : Worker) : Prop :=
  w' = { w with
    state := w'.state, lastProgress := w'.lastProgress, processed := w'.processed
    processErrors := w'.processErrors, events := w'.events }

theorem Nest.next_frame (n : Nest) (i : Nat) : m.WorkerFrame i (n.next m).1 ∧ (n.next m).1.w = m.w := by
  cases n <;> exact ⟨⟨rfl, fun _ _ ↦ rfl⟩, rfl⟩

theorem WorkerPc.next_frame {i : Nat} {p p' : WorkerPc}
    (hn : p.next c m i l x = some (m', p', k)) :
    m.WorkerFrame i m' ∧ (m.w i).OwnFrame (m'.w i) := by
  have hset : ∀ f : Worker → Worker, (m.w i).OwnFrame (f (m.w i)) →
      m.WorkerFrame i (m.setW i f) ∧ (m.w i).OwnFrame ((m.setW i f).w i) :=
    fun f hf ↦ ⟨⟨rfl, fun j hj ↦ Ctl.setW_of_ne _ _ hj⟩, by rw [Ctl.setW_self]; exact hf⟩
  have hsame : m.WorkerFrame i m ∧ (m.w i).OwnFrame (m.w i) := ⟨⟨rfl, fun _ _ ↦ rfl⟩, rfl⟩
  cases p with
  | depth | pop =>
    have hm : m' = m := by
      cases l <;> simp only [WorkerPc.next] at hn <;> grind
    rw [hm]
    exact hsame
  | process p slot n =>
    by_cases hout : n = .out
    · subst hout
      cases x <;> simp only [WorkerPc.next, reduceCtorEq, Option.some.injEq, Prod.mk.injEq] at hn <;>
        obtain ⟨rfl, rfl, -⟩ := hn
      · exact hset _ rfl
      · exact hsame
    · have hstep : m' = (n.next m).1 := by
        cases n <;> cases x <;> first | exact absurd rfl hout | (cases hn; rfl)
      rw [hstep, (n.next_frame i).2]
      exact ⟨(n.next_frame i).1, rfl⟩
  | onError p slot rc n =>
    by_cases hout : n = .out
    · subst hout
      cases x <;> simp only [WorkerPc.next, reduceCtorEq, Option.some.injEq, Prod.mk.injEq] at hn <;>
        obtain ⟨rfl, rfl, -⟩ := hn
      · exact hset _ rfl
      · exact hsame
    · have hstep : m' = (n.next m).1 := by
        cases n <;> cases x <;> first | exact absurd rfl hout | (cases hn; rfl)
      rw [hstep, (n.next_frame i).2]
      exact ⟨(n.next_frame i).1, rfl⟩
  | returned => cases hn
  | countPoolError p slot rc =>
    obtain ⟨rfl, rfl, rfl⟩ := outcome_inj hn
    exact ⟨⟨rfl, fun _ _ ↦ rfl⟩, rfl⟩
  | _ =>
    obtain ⟨rfl, rfl, rfl⟩ := outcome_inj hn
    first | exact hsame | exact hset _ rfl

/-! ## Helpers -/

theorem HelperPc.next_frame {ended : Agent → Bool} {j : Nat} {p p' : HelperPc}
    (hn : p.next m ended j x = some (m', p', k)) :
    m' = { m with joins := m'.joins, box := m'.box } := by
  cases p with
  | join =>
    cases x with
    | go | rc n =>
      simp only [HelperPc.next] at hn
      split at hn <;> cases hn
      rfl
    | _ => cases hn
  | post rc =>
    obtain ⟨rfl, rfl, rfl⟩ := outcome_inj hn
    rfl
  | done => cases hn

/-! ## Shutdown and destroy -/

def Ctl.ShutFrame (m m' : Ctl) : Prop :=
  m' = { m with
    w := m'.w, lifecycle := m'.lifecycle, lifeMu := m'.lifeMu, lifeCv := m'.lifeCv
    shutdownWaiters := m'.shutdownWaiters, quarantined := m'.quarantined
    framesClosed := m'.framesClosed, shutdownAborts := m'.shutdownAborts
    supervisorStop := m'.supervisorStop, supervisorJoined := m'.supervisorJoined
    abandoned := m'.abandoned, drained := m'.drained, executor := m'.executor
    helpers := m'.helpers, target := m'.target }

def Worker.ShutFrame (w w' : Worker) : Prop :=
  w' = { w with state := w'.state, stop := w'.stop, joined := w'.joined, late := w'.late }

theorem ShutPc.next_frame {active : Int} {me : Agent} {p p' : ShutPc}
    (hn : p.next c m active me l x = some (m', p', k)) :
    m.ShutFrame m' ∧ ∀ i, (m.w i).ShutFrame (m'.w i) := by
  have hset : ∀ i (f : Worker → Worker), (m.w i).ShutFrame (f (m.w i)) →
      m.ShutFrame (m.setW i f) ∧ ∀ j, (m.w j).ShutFrame ((m.setW i f).w j) :=
    fun i f hf ↦ ⟨rfl, Ctl.setW_all (P := Worker.ShutFrame) (fun _ ↦ rfl) hf⟩
  cases p with
  | timeoutClose e i | closeAll e i | lateClose e i =>
    simp only [ShutPc.next] at hn
    split at hn
    · rw [(closeCall_cases hn).1]
      exact ⟨rfl, fun _ ↦ rfl⟩
    · cases hn
      exact ⟨rfl, fun _ ↦ rfl⟩
  | stopClose e i =>
    rw [(closeCall_cases hn).1]
    exact ⟨rfl, fun _ ↦ rfl⟩
  | waitLock | waitRelock | quiesceLock | lifeLock e last =>
    simp only [ShutPc.next, Option.map_eq_some_iff, Prod.mk.injEq] at hn
    obtain ⟨m₁, hm, rfl, -, -⟩ := hn
    rw [(Ctl.lockLife_eq hm).2]
    exact ⟨rfl, fun _ ↦ rfl⟩
  | drainPop e i =>
    have hm : m' = m := by
      cases l <;> simp only [ShutPc.next] at hn <;> grind
    rw [hm]
    exact ⟨rfl, fun _ ↦ rfl⟩
  | joinCreate e t =>
    cases x with
    | go =>
      obtain ⟨rfl, rfl, rfl⟩ := outcome_inj hn
      exact ⟨rfl, fun _ ↦ rfl⟩
    | rc n =>
      simp only [ShutPc.next] at hn
      split at hn <;> cases hn
      exact ⟨rfl, fun _ ↦ rfl⟩
    | _ => cases hn
  | cas life | waitLife | waitBlocked ticket | anyQuarantined e i =>
    simp only [ShutPc.next] at hn
    split at hn <;> cases hn <;> exact ⟨rfl, fun _ ↦ rfl⟩
  | done rc => cases hn
  | _ =>
    obtain ⟨rfl, rfl, rfl⟩ := outcome_inj hn
    first | exact ⟨rfl, fun _ ↦ rfl⟩ | exact hset _ _ rfl

/-- The joining of the supervisor is not taken back. -/
theorem ShutPc.next_supJoined {active : Int} {me : Agent} {p p' : ShutPc}
    (hn : p.next c m active me l x = some (m', p', k)) (hj : m.supervisorJoined = true) :
    m'.supervisorJoined = true := by
  cases p with
  | timeoutClose e i | closeAll e i | lateClose e i =>
    simp only [ShutPc.next] at hn
    split at hn
    · rwa [(closeCall_cases hn).1]
    · cases hn
      exact hj
  | stopClose e i => rwa [(closeCall_cases hn).1]
  | waitLock | waitRelock | quiesceLock | lifeLock e last =>
    simp only [ShutPc.next, Option.map_eq_some_iff, Prod.mk.injEq] at hn
    obtain ⟨m₁, hm, rfl, -, -⟩ := hn
    rwa [(Ctl.lockLife_eq hm).2]
  | drainPop e i =>
    have hm : m' = m := by
      cases l <;> simp only [ShutPc.next] at hn <;> grind
    rwa [hm]
  | joinCreate e t =>
    cases x with
    | go =>
      obtain ⟨rfl, rfl, rfl⟩ := outcome_inj hn
      exact hj
    | rc n =>
      simp only [ShutPc.next] at hn
      split at hn <;> cases hn
      exact hj
    | _ => cases hn
  | cas life | waitLife | waitBlocked ticket | anyQuarantined e i =>
    simp only [ShutPc.next] at hn
    split at hn <;> cases hn <;> exact hj
  | supSetJoined e =>
    obtain ⟨rfl, rfl, rfl⟩ := outcome_inj hn
    rfl
  | done rc => cases hn
  | _ =>
    obtain ⟨rfl, rfl, rfl⟩ := outcome_inj hn
    exact hj

/-- `awp_pool_destroy` outside the shutdown it calls. -/
def Ctl.DestroyFrame (m m' : Ctl) : Prop :=
  m' = { m with
    destroyStarted := m'.destroyStarted, lifeMu := m'.lifeMu, quarantined := m'.quarantined
    framesClosed := m'.framesClosed, freed := m'.freed }

theorem DestroyPc.next_frame {d : Dat} {me : Agent} {p p' : DestroyPc}
    (hn : p.next c m d me l x = some (m', p', k)) :
    (∃ q q', p = .shut q ∧ p' = .shut q' ∧
      q.next c m d.activeSubmits me l x = some (m', q', k)) ∨
    (m.DestroyFrame m' ∧ (∀ q, p = .shut q → ∃ rc, q = .done rc) ∧ ∀ q, p' = .shut q → q = .start) := by
  cases p with
  | shut q =>
    by_cases hq : ∃ rc, q = .done rc
    · obtain ⟨rc, rfl⟩ := hq
      obtain ⟨rfl, rfl, rfl⟩ := outcome_inj hn
      exact Or.inr ⟨rfl, fun q hq ↦ ⟨rc, (DestroyPc.shut.inj hq).symm⟩, by simp⟩
    · rw [DestroyPc.next_shut (fun rc hrc ↦ hq ⟨rc, hrc⟩), Option.map_eq_some_iff] at hn
      obtain ⟨⟨m₁, q', k₁⟩, hn, he⟩ := hn
      simp only [Prod.mk.injEq] at he
      obtain ⟨rfl, rfl, rfl⟩ := he
      exact Or.inl ⟨q, q', rfl, rfl, hn⟩
  | released | leaked | refused => cases hn
  | lock | relock =>
    simp only [DestroyPc.next, Option.map_eq_some_iff, Prod.mk.injEq] at hn
    obtain ⟨m₁, hm, rfl, rfl, -⟩ := hn
    rw [(Ctl.lockLife_eq hm).2]
    exact Or.inr ⟨rfl, by simp, by simp⟩
  | lifeLoad =>
    obtain ⟨rfl, rfl, rfl⟩ := outcome_inj hn
    refine Or.inr ⟨rfl, by simp, fun q hq ↦ ?_⟩
    split at hq
    · cases hq
    · exact (DestroyPc.shut.inj hq).symm
  | cas | waiters | blocked ticket | ckWorker i | joined i =>
    simp only [DestroyPc.next] at hn
    split at hn <;> cases hn <;> refine Or.inr ⟨rfl, by simp, ?_⟩ <;>
      intro q hq <;> first | cases hq | (split at hq <;> cases hq)
  | refsMark | leakMark | refsFrames | leakFrames | unlock | release =>
    obtain ⟨rfl, rfl, rfl⟩ := outcome_inj hn
    exact Or.inr ⟨rfl, by simp, by simp⟩
  | refs spins | ckQuarantined | ckActive | ckRefs | ckSup | state i =>
    obtain ⟨rfl, rfl, rfl⟩ := outcome_inj hn
    refine Or.inr ⟨rfl, by simp, fun q hq ↦ ?_⟩
    split at hq
    · first | cases hq | (split at hq <;> cases hq)
    · cases hq

end Frames

section Ended

variable {c : Config} {s s' : Pool}

/-- Once a worker's thread has ended without a supervisor to start another, that is for good. -/
theorem Sound.ended_step (h : Sound c s) {e : Label} (hst : s.step c e = some s') {i : Nat}
    (hend : (Fact.ended i).Holds c s.ctl s.crew) : (Fact.ended i).Holds c s'.ctl s'.crew := by
  have hshut : ∀ {q q' : ShutPc} {n : Nat} {l : Loc Nat Nat} {m : Ctl} {x : Choice} {k : Cmd},
      (s.thr (.api n)).pc.shut? = some q →
      q.next c s.ctl s.dat.activeSubmits (.api n) l x = some (m, q', k) →
      (Fact.ended i).Holds c m s.crew := by
    intro q q' n l m x k hq hn
    have hcur : (m.w i).cur = (s.ctl.w i).cur := by
      rw [(ShutPc.next_frame hn).2 i, Worker.cur, Worker.cur]
    exact ⟨ShutPc.next_supJoined hn hend.1, by rw [hcur]; exact hend.2⟩
  rcases Pool.step_cases hst with ⟨t, -, rfl⟩ | ⟨n, pc, hpc, hstart, rfl⟩ |
    ⟨a, x, spurious, r, l, -, -, hact, -, hstep, rfl⟩ |
    ⟨a, x, m, d, pc, k, sh, l, -, hex, hact, hnext, hk, rfl⟩
  · exact hend
  · rw [Pool.crew_api s.ctl s.dat]
    exact hend
  · refine ⟨hend.1, ?_⟩
    have hpc : (Function.update s.thr a { s.thr a with loc := l }
        (.worker i (s.ctl.w i).cur)).pc = (s.thr (.worker i (s.ctl.w i).cur)).pc := by
      by_cases hb : .worker i (s.ctl.w i).cur = a
      · rw [hb, Function.update_self]
      · rw [Function.update_of_ne hb]
    have hst := hend.2
    simp only [Pool.crew] at hst ⊢
    rw [hpc]
    exact hst
  · rcases Pool.next_cases (h.seated.runs a) hnext with
      ⟨n, p, p', rfl, hp, rfl, rfl, hn⟩ | ⟨n, p, p', rfl, hp, rfl, rfl, hn⟩ |
      ⟨n, p, p', rfl, hp, rfl, rfl, hn⟩ | ⟨j, j', p, p', rfl, hp, rfl, rfl, hn⟩ |
      ⟨p, p', rfl, hp, rfl, rfl, hn⟩ | ⟨j, p, p', rfl, hp, rfl, rfl, hn⟩
    · rw [Pool.crew_api]
      exact hend
    · rw [Pool.crew_api]
      exact hshut (by rw [hp]; rfl) hn
    · rw [Pool.crew_api]
      rcases DestroyPc.next_cases hn with ⟨q, q', rfl, rfl, hn'⟩ | ⟨ha, -⟩
      · exact hshut (by rw [hp]; rfl) hn'
      · exact hend.stable ha.rely
    · simp only [Pool.exists, decide_eq_true_eq] at hex
      have hst : s.crew.stage j j' = p.stage := by
        simp only [Pool.crew, hp]
        rfl
      have hr := (custody_worker h.custody hex.2 hst hn).2
      rw [Pool.crew_worker]
      exact hend.stable hr
    · have hsup : s.crew.sup = p := by
        simp only [Pool.crew, hp]
        rfl
      rw [h.ended_eq] at hn
      have hr := (custody_sup h.custody hex hsup hn).2
      rw [Pool.crew_sup]
      exact hend.stable hr
    · have hhelper : s.crew.helper j = p := by
        simp only [Pool.crew, hp]
        rfl
      rw [h.ended_eq] at hn
      have hr := (custody_helper h.custody (of_decide_eq_true hex) hhelper hn).2
      rw [Pool.crew_helper]
      exact hend.stable hr

end Ended

end Awp
