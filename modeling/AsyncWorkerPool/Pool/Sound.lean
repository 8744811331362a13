import AsyncWorkerPool.Pool.Executor

/-!
# Sound — the invariant of the pool

The steps of workers, helpers and the supervisor keep custody, and leave alone what the executor
relies on.  With the executor's own steps this makes `Sound` an invariant of every run: custody,
the knowledge of every shutdown call, and the ring invariant of every shard, since at most one
party at a time consumes.
-/

open Foundation

namespace Awp

section Steps

variable {c : Config} {m m' : Ctl} {T : Crew} {l : Loc Nat Nat} {x : Choice} {k : Cmd}

/-! ## Workers -/

theorem Nest.next_alike (n : Nest) : m.Alike (n.next m).1 := by
  cases n with
  | markStore => exact m.markQuarantined_alike
  | out | markFrames | persistLoad | persistCas => exact { Ctl.Alike.refl m with }

/-- A worker's thread writes its state when it starts and when it returns, and otherwise nothing
that custody rests on. -/
theorem WorkerPc.next_stage {i : Nat} {p p' : WorkerPc} (hn : p.next c m i l x = some (m', p', k)) :
    (p'.stage = p.stage ∧ m.Alike m') ∨
    (p.stage = .fresh ∧ p'.stage = .live ∧ m' = m.setW i ({ · with state := .running })) ∨
    (p.stage = .live ∧ p'.stage = .ended ∧ m' = m.setW i ({ · with state := .exited })) := by
  have hset : ∀ f : Worker → Worker, (∀ w, (f w).state = w.state ∧ (f w).joined = w.joined ∧
      (f w).spawned = w.spawned ∧ (f w).late = w.late) → m.Alike (m.setW i f) :=
    fun f hf ↦ .setW m i f hf
  cases p with
  | entry =>
    obtain ⟨rfl, rfl, rfl⟩ := outcome_inj hn
    exact Or.inr (Or.inl ⟨rfl, rfl, rfl⟩)
  | exit =>
    obtain ⟨rfl, rfl, rfl⟩ := outcome_inj hn
    exact Or.inr (Or.inr ⟨rfl, rfl, rfl⟩)
  | stamp | taken p slot | call p slot | countError p slot rc | callError p slot rc | count
  | progress =>
    obtain ⟨rfl, rfl, rfl⟩ := outcome_inj hn
    exact Or.inl ⟨rfl, hset _ fun _ ↦ ⟨rfl, rfl, rfl, rfl⟩⟩
  | loop =>
    obtain ⟨rfl, rfl, rfl⟩ := outcome_inj hn
    refine Or.inl ⟨?_, .refl m⟩
    split <;> rfl
  | countPoolError p slot rc =>
    obtain ⟨rfl, rfl, rfl⟩ := outcome_inj hn
    refine Or.inl ⟨?_, { Ctl.Alike.refl m with }⟩
    split <;> rfl
  | depth | pop =>
    left
    cases l <;> simp only [WorkerPc.next, reduceCtorEq] at hn <;>
      grind [WorkerPc.stage, Ctl.Alike.refl]
  | process p slot n =>
    left
    by_cases hout : n = .out
    · subst hout
      cases x <;> simp only [WorkerPc.next, reduceCtorEq, Option.some.injEq, Prod.mk.injEq] at hn <;>
        obtain ⟨rfl, rfl, -⟩ := hn
      · refine ⟨?_, hset _ fun _ ↦ ⟨rfl, rfl, rfl, rfl⟩⟩
        split <;> rfl
      · exact ⟨rfl, .refl m⟩
    · have hstep : m' = (n.next m).1 ∧ p' = .process p slot (n.next m).2 := by
        cases n <;> cases x <;> first | exact absurd rfl hout | (cases hn; exact ⟨rfl, rfl⟩)
      obtain ⟨rfl, rfl⟩ := hstep
      exact ⟨rfl, n.next_alike⟩
  | onError p slot rc n =>
    left
    by_cases hout : n = .out
    · subst hout
      cases x <;> simp only [WorkerPc.next, reduceCtorEq, Option.some.injEq, Prod.mk.injEq] at hn <;>
        obtain ⟨rfl, rfl, -⟩ := hn
      · exact ⟨rfl, hset _ fun _ ↦ ⟨rfl, rfl, rfl, rfl⟩⟩
      · exact ⟨rfl, .refl m⟩
    · have hstep : m' = (n.next m).1 ∧ p' = .onError p slot rc (n.next m).2 := by
        cases n <;> cases x <;> first | exact absurd rfl hout | (cases hn; exact ⟨rfl, rfl⟩)
      obtain ⟨rfl, rfl⟩ := hstep
      exact ⟨rfl, n.next_alike⟩
  | returned => cases hn

theorem Crew.setStage_eq (T : Crew) {i k : Nat} {g : Stage} (h : T.stage i k = g) :
    T.setStage i k g = T := by
  subst h
  simp [Crew.setStage]

/-- A worker's own write to its state, as the executor sees it. -/
theorem Rely.worker {i : Nat} {st : WState} {g : Stage}
    (hcur : T.stage i (m.w i).cur ≠ .ended) (hg : g ≠ .fresh)
    (hst : (st = .running ∧ T.stage i (m.w i).cur = .fresh) ∨ (st = .exited ∧ g = .ended)) :
    Rely c m (m.setW i ({ · with state := st })) T (T.setStage i (m.w i).cur g) := by
  have hstage : ∀ j n, (T.setStage i (m.w i).cur g).stage j n = T.stage j n ∨
      (j = i ∧ n = (m.w i).cur ∧ (T.setStage i (m.w i).cur g).stage j n = g) := by
    intro j n
    by_cases hj : j = i
    · subst hj
      rw [T.setStage_self]
      by_cases hn : n = (m.w j).cur
      · subst hn
        exact Or.inr ⟨rfl, rfl, Function.update_self _ _ _⟩
      · exact Or.inl (Function.update_of_ne hn _ _)
    · exact Or.inl (by rw [T.setStage_of_ne _ _ hj])
  have hfields : ∀ j, ((m.setW i ({ · with state := st })).w j).late = (m.w j).late ∧
      ((m.setW i ({ · with state := st })).w j).joined = (m.w j).joined ∧
      ((m.setW i ({ · with state := st })).w j).spawned = (m.w j).spawned := by
    intro j
    by_cases hj : j = i
    · subst hj
      rw [Ctl.setW_self]
      exact ⟨rfl, rfl, rfl⟩
    · rw [Ctl.setW_of_ne _ _ hj]
      exact ⟨rfl, rfl, rfl⟩
  refine
    { executor := rfl, helpers := rfl, target := rfl, supJoined := rfl, quarantined := id
      clock := le_rfl, joins := fun _ ↦ id
      late := fun j ↦ (hfields j).1
      joined := fun _ j ↦ (hfields j).2.1
      spawned := fun _ j ↦ (hfields j).2.2
      ended := fun j n hend ↦ ?_, begun := fun j n hb ↦ ?_, state := fun _ j ↦ ?_ }
  · rcases hstage j n with he | ⟨rfl, rfl, -⟩
    · exact he.trans hend
    · exact absurd hend hcur
  · rcases hstage j n with he | ⟨-, -, he⟩ <;> rw [he]
    · exact hb
    · exact hg
  · by_cases hj : j = i
    · subst hj
      rw [Ctl.setW_self, T.setStage_self, Function.update_self]
      rcases hst with ⟨rfl, hf⟩ | ⟨rfl, rfl⟩
      · exact Or.inr (Or.inl ⟨rfl, hf⟩)
      · exact Or.inr (Or.inr ⟨rfl, rfl⟩)
    · rw [Ctl.setW_of_ne _ _ hj]
      exact Or.inl rfl

/-- A step of thread `k` of worker `i`. -/
theorem custody_worker (h : Custody c m T) {i j : Nat} {p p' : WorkerPc}
    (hj : j < (m.w i).spawned) (hst : T.stage i j = p.stage)
    (hn : p.next c m i l x = some (m', p', k)) :
    Custody c m' (T.setStage i j p'.stage) ∧ Rely c m m' T (T.setStage i j p'.stage) := by
  rcases WorkerPc.next_stage hn with ⟨hsame, ha⟩ | ⟨hf, hl, rfl⟩ | ⟨hl, he, rfl⟩
  · rw [T.setStage_eq (hst.trans hsame.symm)]
    exact ⟨h.alike ha, ha.rely⟩
  · obtain rfl := (h.post i).current hj (by rw [hst, hf]; decide)
    rw [hl]
    have hfresh := hst.trans hf
    exact ⟨h.workerEnter hfresh,
      .worker (by rw [hfresh]; decide) (by decide) (Or.inl ⟨rfl, hfresh⟩)⟩
  · obtain rfl := (h.post i).current hj (by rw [hst, hl]; decide)
    rw [he]
    have hlive := hst.trans hl
    exact ⟨h.workerLeave hlive, .worker (by rw [hlive]; decide) (by decide) (Or.inr ⟨rfl, rfl⟩)⟩

/-! ## Helpers -/

theorem custody_helper (h : Custody c m T) {j : Nat} {p p' : HelperPc} (hj : j < m.helpers)
    (hp : T.helper j = p) (hn : p.next m T.ended j x = some (m', p', k)) :
    Custody c m' { T with helper := Function.update T.helper j p' } ∧
      Rely c m m' T { T with helper := Function.update T.helper j p' } := by
  have hrely : ∀ m', m'.w = m.w → m'.executor = m.executor → m'.helpers = m.helpers →
      m'.target = m.target → m'.supervisorJoined = m.supervisorJoined →
      m'.quarantined = m.quarantined → m'.clock = m.clock →
      (∀ a, m.joins a = 1 → m'.joins a = 1) →
      Rely c m m' T { T with helper := Function.update T.helper j p' } := by
    intro m' hw hx hh ht hs hq hc hjoins
    exact
      { executor := hx, helpers := hh, target := ht, supJoined := hs, joins := hjoins
        quarantined := fun h ↦ hq.trans h
        clock := hc.ge
        late := fun i ↦ by rw [hw]
        ended := fun _ _ ↦ id, begun := fun _ _ ↦ id
        joined := fun _ i ↦ by rw [hw]
        spawned := fun _ i ↦ by rw [hw]
        state := fun _ i ↦ Or.inl (by rw [hw]) }
  cases p with
  | join =>
    cases x with
    | go =>
      simp only [HelperPc.next, Option.ite_none_right_eq_some, Option.some.injEq,
        Prod.mk.injEq] at hn
      obtain ⟨hend, rfl, rfl, -⟩ := hn
      refine ⟨h.helperJoin hj hp hend, hrely _ rfl rfl rfl rfl rfl rfl rfl fun a ha ↦ ?_⟩
      have hzero := h.joining j hj hp
      rw [m.join_joins_of_ne (by rintro rfl; omega)]
      exact ha
    | rc n =>
      simp only [HelperPc.next, Option.ite_none_right_eq_some, Option.some.injEq,
        Prod.mk.injEq] at hn
      obtain ⟨hpos, rfl, rfl, -⟩ := hn
      have hmove := h.helperMove hj (p := .post n) (by simp)
        (fun he ↦ by cases he; omega) (Or.inl (Eq.refl (m.box j)))
      simp only [Function.update_eq_self] at hmove
      exact ⟨hmove, hrely _ rfl rfl rfl rfl rfl rfl rfl fun _ ↦ id⟩
    | _ => cases hn
  | post rc =>
    obtain ⟨rfl, rfl, rfl⟩ := outcome_inj hn
    exact ⟨h.helperMove hj (by simp) (fun he ↦ by cases he) (Or.inr ⟨rc, hp, rfl⟩),
      hrely _ rfl rfl rfl rfl rfl rfl rfl fun _ ↦ id⟩
  | done => cases hn

/-! ## The supervisor -/

theorem Round.head_fact (r : Round) : (r.head c).fact = none := by
  rw [Round.head]
  split <;> rfl

theorem Round.next_fact (r : Round) : (r.next c).fact = none := Round.head_fact _

/-- What is known while asking is known, or no longer of interest, when the answer is there. -/
theorem Ask.answer_fact (q : Ask) (b : Bool) :
    (q.answer c b).fact = none ∨ (q.answer c b).fact = (SupPc.ask q).fact := by
  cases q <;> cases b <;>
    first
    | exact Or.inl rfl
    | exact Or.inr rfl
    | exact Or.inl (Round.next_fact _)

theorem ringCall_cases {i : Nat} {f : Loc Nat Nat} {here after p' : SupPc}
    (h : ringCall m l i f here after = some (m', p', k)) : m' = m ∧ (p' = here ∨ p' = after) := by
  cases l <;> simp only [ringCall, Option.some.injEq, Prod.mk.injEq, reduceCtorEq] at h
  · exact ⟨h.1.symm, Or.inl h.2.1.symm⟩
  · exact ⟨h.1.symm, Or.inr h.2.1.symm⟩

/-- The supervisor moves, writing nothing custody rests on. -/
theorem sup_alike (h : Custody c m T) (he : c.enableSupervisor = true) {p p' : SupPc}
    (hp : T.sup = p) (hret : p ≠ .returned) (howes : ∀ j, p.owes j → p'.owes j)
    (hfact : ∀ g, p'.fact = some g → g.Holds m { T with sup := p' }) (ha : m.Alike m') :
    Custody c m' { T with sup := p' } ∧ Rely c m m' T { T with sup := p' } := by
  subst hp
  exact ⟨(h.think he hret howes hfact).alike ha, { ha.rely (c := c) (T := T) with }⟩

/-- The supervisor moves to a location where it knows nothing, or what it knew. -/
theorem sup_quiet (h : Custody c m T) (he : c.enableSupervisor = true) {p p' : SupPc}
    (hp : T.sup = p) (hret : p ≠ .returned) (howes : ∀ j, ¬ p.owes j)
    (hfact : p'.fact = none ∨ p'.fact = p.fact) (ha : m.Alike m') :
    Custody c m' { T with sup := p' } ∧ Rely c m m' T { T with sup := p' } := by
  refine sup_alike h he hp hret (fun j hj ↦ absurd hj (howes j)) (fun g hg ↦ ?_) ha
  rcases hfact with hf | hf <;> rw [hf] at hg
  · cases hg
  · subst hp
    have hold := h.sup g hg
    cases g <;> exact hold

/-- The supervisor writes the record of the worker it handles. -/
theorem sup_touch (h : Custody c m T) (he : c.enableSupervisor = true) {p p' : SupPc}
    (hp : T.sup = p) (hret : p ≠ .returned) {i : Nat} {f : Worker → Worker}
    (hspawned : (f (m.w i)).spawned = (m.w i).spawned) (hlate : (f (m.w i)).late = (m.w i).late)
    (hpost : Post (f (m.w i)) (T.stage i) (fun k ↦ m.joins (.worker i k)))
    (hrecord : m.joins (m.handle i) = 1 → (f (m.w i)).joined = true ∨ p'.owes i ∨
      ∃ h < m.helpers, m.target h = m.handle i)
    (howes : ∀ j ≠ i, p.owes j → p'.owes j)
    (hfact : ∀ g, p'.fact = some g → g.Holds (m.setW i f) { T with sup := p' }) :
    Custody c (m.setW i f) { T with sup := p' } ∧
      Rely c m (m.setW i f) T { T with sup := p' } := by
  subst hp
  have hnot := h.not_supJoined he hret
  have hno : ∀ {P : Prop}, m.supervisorJoined = true → P := fun hj ↦ by
    rw [hnot] at hj
    cases hj
  refine ⟨h.touch i f (Or.inr ⟨he, h.joins_sup_ne hret⟩) rfl (fun _ _ ↦ rfl) hspawned hpost hrecord
    howes hfact (fun _ ↦ hlate) (fun hj ↦ hno hj), ?_⟩
  exact
    { executor := rfl, helpers := rfl, target := rfl, supJoined := rfl, quarantined := id
      clock := le_rfl, joins := fun _ ↦ id, ended := fun _ _ ↦ id, begun := fun _ _ ↦ id
      joined := fun hj ↦ hno hj, spawned := fun hj ↦ hno hj, state := fun hj ↦ hno hj
      late := fun j ↦ by
        by_cases hj : j = i
        · subst hj
          rw [Ctl.setW_self, hlate]
        · rw [Ctl.setW_of_ne _ _ hj] }

theorem custody_sup (h : Custody c m T) (he : c.enableSupervisor = true) {p p' : SupPc}
    (hp : T.sup = p) (hn : p.next c m T.ended l x = some (m', p', k)) :
    Custody c m' { T with sup := p' } ∧ Rely c m m' T { T with sup := p' } := by
  have hnone : ∀ {q : SupPc}, (q.fact = none ∨ ∃ i, q.fact = some (.up i) ∨
      q.fact = some (.unjoined i) ∨ q.fact = some (.joined i)) → ∀ j, ¬ q.owes j := by
    intro q hq j hj
    rcases hj with hj | hj <;> rw [hj] at hq <;> simp at hq
  have hset : ∀ i (f : Worker → Worker), (∀ w, (f w).state = w.state ∧ (f w).joined = w.joined ∧
      (f w).spawned = w.spawned ∧ (f w).late = w.late) → m.Alike (m.setW i f) :=
    fun i f hf ↦ .setW m i f hf
  have hfact : ∀ f, p.fact = some f → f.Holds m T := fun f hf ↦ h.sup f (hp ▸ hf)
  cases p with
  | returned => cases hn
  | phase | alive | now | exitPhase | exitAlive | exitBroadcast | exitUnlock | quarFrames r
  | quarAbort r | joinFailFrames r | failFrames r | failAbort r | failStop r =>
    obtain ⟨rfl, rfl, rfl⟩ := outcome_inj hn
    exact sup_quiet h he hp (by simp) (hnone (Or.inl rfl))
      (Or.inl (by first | rfl | exact Round.head_fact _))
      { Ctl.Alike.refl m with }
  | quarMark r | joinFailMark r | failMark r =>
    obtain ⟨rfl, rfl, rfl⟩ := outcome_inj hn
    exact sup_quiet h he hp (by simp) (hnone (Or.inl rfl)) (Or.inl rfl) m.markQuarantined_alike
  | stallStop r last | graceCancel r last | healthy r | restarted r =>
    obtain ⟨rfl, rfl, rfl⟩ := outcome_inj hn
    exact sup_quiet h he hp (by simp) (hnone (Or.inl rfl))
      (Or.inl (by first | rfl | exact Round.next_fact _))
      (hset _ _ fun _ ↦ ⟨rfl, rfl, rfl, rfl⟩)
  | sliceClock r | state r | graceStart r last | graceState r last u | graceClock r last u
  | graceProgress r last u | afterExited r last =>
    obtain ⟨rfl, rfl, rfl⟩ := outcome_inj hn
    refine sup_quiet h he hp (by simp) (hnone (Or.inl rfl)) (Or.inl ?_) (.refl m)
    first | rfl | (split <;> rfl)
  | progress r st =>
    obtain ⟨rfl, rfl, rfl⟩ := outcome_inj hn
    refine sup_quiet h he hp (by simp) (hnone (Or.inl rfl)) (Or.inl ?_) (.refl m)
    rw [Round.inspect]
    repeat' split
    all_goals first | rfl | exact Round.next_fact _
  | ask q =>
    obtain ⟨rfl, rfl, rfl⟩ := outcome_inj hn
    have howes : ∀ j, ¬ (SupPc.ask q).owes j := hnone (by cases q <;> simp [SupPc.fact])
    refine sup_quiet h he hp (by simp) howes ?_ (.refl m)
    split
    · exact Or.inr (by cases q <;> rfl)
    · exact q.answer_fact false
  | askStop q =>
    obtain ⟨rfl, rfl, rfl⟩ := outcome_inj hn
    have howes : ∀ j, ¬ (SupPc.askStop q).owes j := hnone (by cases q <;> simp [SupPc.fact])
    refine sup_quiet h he hp (by simp) howes ?_ (.refl m)
    rcases q.answer_fact (c := c) (!m.supervisorStop) with ha | ha
    · exact Or.inl ha
    · exact Or.inr (ha.trans (by cases q <;> rfl))
  | stallDepth r last =>
    have hcases : m' = m ∧ p'.fact = none := by
      cases l <;> simp only [SupPc.next, reduceCtorEq] at hn <;>
        grind [Round.next_fact, SupPc.fact]
    obtain ⟨rfl, hf⟩ := hcases
    exact sup_quiet h he hp (by simp) (hnone (Or.inl rfl)) (Or.inl hf) (.refl _)
  | quarClose r | reclose r | postClose r | failClose r =>
    obtain ⟨rfl, rfl | rfl⟩ := ringCall_cases hn
    · exact sup_quiet h he hp (by simp) (hnone (Or.inl rfl)) (Or.inl rfl) (.refl _)
    · exact sup_quiet h he hp (by simp) (hnone (Or.inl rfl))
        (Or.inl (by first | rfl | exact Round.next_fact _)) (.refl _)
  | reopen r =>
    obtain ⟨rfl, rfl | rfl⟩ := ringCall_cases hn <;>
      exact sup_quiet h he hp (by simp) (hnone (by simp [SupPc.fact])) (Or.inr rfl) (.refl _)
  | afterRunning r last =>
    obtain ⟨rfl, rfl, rfl⟩ := outcome_inj hn
    refine sup_alike h he hp (by simp) (fun j hj ↦ absurd hj (hnone (Or.inl rfl) j)) ?_ (.refl m)
    intro g hg
    split at hg
    · rename_i hrun
      cases hg
      exact (h.post r.i).running hrun
    · cases hg
  | afterStop r last | afterProgress r last =>
    obtain ⟨rfl, rfl, rfl⟩ := outcome_inj hn
    refine sup_quiet h he hp (by simp) (hnone (by simp [SupPc.fact])) ?_ (.refl m)
    split
    · exact Or.inr rfl
    · exact Or.inl rfl
  | quarState r =>
    obtain ⟨rfl, rfl, rfl⟩ := outcome_inj hn
    refine sup_touch h he hp (by simp) rfl rfl ((h.post r.i).quarantine (hfact _ rfl)) ?_ ?_
      (by simp [SupPc.fact])
    · intro hone
      rcases h.record r.i hone with hj | ho | hk
      · exact Or.inl hj
      · rw [hp] at ho
        exact absurd ho (hnone (by simp [SupPc.fact]) _)
      · exact Or.inr (Or.inr hk)
    · exact fun j _ hj ↦ absurd hj (hnone (by simp [SupPc.fact]) j)
  | joinedLoad r =>
    obtain ⟨rfl, rfl, rfl⟩ := outcome_inj hn
    refine sup_alike h he hp (by simp) (fun j hj ↦ absurd hj (hnone (Or.inl rfl) j)) ?_ (.refl m)
    intro g hg
    split at hg
    · rename_i hj
      cases hg
      exact hj
    · rename_i hj
      cases hg
      refine ⟨by simpa using hj, ((h.post r.i).joins_eq _).resolve_right fun hone ↦ ?_⟩
      rcases h.record r.i hone with hj' | ho | ⟨b, hb, ht⟩
      · exact hj hj'
      · rw [hp] at ho
        exact hnone (Or.inl rfl) _ ho
      · have hnot := h.not_supJoined he (by simp [hp])
        rcases h.target b hb with hs | ⟨_, _, _, hd⟩
        · rw [ht] at hs
          cases hs
        · rw [hnot] at hd
          cases hd
  | join r =>
    cases x with
    | go =>
      simp only [SupPc.next, Option.ite_none_right_eq_some, Option.some.injEq, Prod.mk.injEq] at hn
      obtain ⟨hend, rfl, rfl, -⟩ := hn
      have hzero := (hfact _ rfl).2
      refine ⟨h.supJoin he hp (of_decide_eq_true hend), ?_⟩
      have hnot := h.not_supJoined he (by simp [hp])
      have hno : ∀ {P : Prop}, m.supervisorJoined = true → P := fun hj ↦ by
        rw [hnot] at hj
        cases hj
      exact
        { executor := rfl, helpers := rfl, target := rfl, supJoined := rfl, quarantined := id
          clock := le_rfl, late := fun _ ↦ rfl, ended := fun _ _ ↦ id, begun := fun _ _ ↦ id
          joined := fun hj ↦ hno hj, spawned := fun hj ↦ hno hj, state := fun hj ↦ hno hj
          joins := fun a ha ↦ by
            rw [m.join_joins_of_ne (by rintro rfl; omega)]
            exact ha }
    | rc n =>
      simp only [SupPc.next, Option.ite_none_left_eq_some, Option.some.injEq, Prod.mk.injEq] at hn
      obtain ⟨-, rfl, rfl, -⟩ := hn
      exact sup_quiet h he hp (by simp) (hnone (by simp [SupPc.fact])) (Or.inl rfl) (.refl _)
    | _ => cases hn
  | setJoined r =>
    obtain ⟨rfl, rfl, rfl⟩ := outcome_inj hn
    have hf := hfact _ rfl
    refine sup_touch h he hp (by simp) rfl rfl ((h.post r.i).setJoined hf.2) (fun _ ↦ Or.inl rfl) ?_ ?_
    · rintro j hj (ho | ho)
      · exact absurd (by simpa [SupPc.fact] using ho) (Ne.symm hj)
      · cases ho
    · intro g hg
      cases hg
      simp only [SupFact.Holds, Ctl.setW_self]
  | setState r =>
    obtain ⟨rfl, rfl, rfl⟩ := outcome_inj hn
    have hf : (m.w r.i).joined = true := hfact _ rfl
    refine sup_touch h he hp (by simp) rfl rfl
      ((h.post r.i).stateJoined ((h.post r.i).after _ ((h.post r.i).joined hf)))
      (fun _ ↦ Or.inl hf) (fun j _ hj ↦ absurd hj (hnone (by simp [SupPc.fact]) j)) ?_
    intro g hg
    cases hg
    simp only [SupFact.Holds, Ctl.setW_self]
    exact hf
  | stampProgress r =>
    obtain ⟨rfl, rfl, rfl⟩ := outcome_inj hn
    exact sup_quiet h he hp (by simp) (hnone (by simp [SupPc.fact])) (Or.inr rfl)
      (hset _ _ fun _ ↦ ⟨rfl, rfl, rfl, rfl⟩)
  | startStop r =>
    obtain ⟨rfl, rfl, rfl⟩ := outcome_inj hn
    exact sup_quiet h he hp (by simp) (hnone (by simp [SupPc.fact])) (Or.inr rfl)
      (hset _ _ fun _ ↦ ⟨rfl, rfl, rfl, rfl⟩)
  | startJoined r =>
    obtain ⟨rfl, rfl, rfl⟩ := outcome_inj hn
    have hf : (m.w r.i).joined = true := hfact _ rfl
    have hone := (h.post r.i).joined hf
    refine sup_touch h he hp (by simp) rfl rfl (h.post r.i).clearJoined
      (fun _ ↦ Or.inr (Or.inl (Or.inl rfl)))
      (fun j _ hj ↦ absurd hj (hnone (by simp [SupPc.fact]) j)) ?_
    intro g hg
    cases hg
    simp only [SupFact.Holds, Ctl.handle, Ctl.setW_self, true_and]
    exact hone
  | startState r =>
    obtain ⟨rfl, rfl, rfl⟩ := outcome_inj hn
    obtain ⟨hj, hone⟩ := hfact _ rfl
    refine sup_touch h he hp (by simp) rfl rfl (h.post r.i).starting
      (fun _ ↦ Or.inr (Or.inl (Or.inr rfl))) ?_ ?_
    · rintro j hji (ho | ho)
      · exact absurd (by simpa [SupPc.fact] using ho) (Ne.symm hji)
      · cases ho
    · intro g hg
      cases hg
      simp only [SupFact.Holds, Ctl.handle, Ctl.setW_self, true_or, and_true]
      exact ⟨hj, hone⟩
  | startGeneration r =>
    obtain ⟨rfl, rfl, rfl⟩ := outcome_inj hn
    refine sup_alike h he hp (by simp) (fun j hj ↦ hj) (fun g hg ↦ ?_)
      (hset _ _ fun _ ↦ ⟨rfl, rfl, rfl, rfl⟩)
    cases hg
    exact hfact _ rfl
  | create r =>
    cases x with
    | go =>
      obtain ⟨rfl, rfl, rfl⟩ := outcome_inj hn
      refine ⟨h.supSpawn he hp, ?_⟩
      have hnot := h.not_supJoined he (by simp [hp])
      have hno : ∀ {P : Prop}, m.supervisorJoined = true → P := fun hj ↦ by
        rw [hnot] at hj
        cases hj
      exact
        { executor := rfl, helpers := rfl, target := rfl, supJoined := rfl, quarantined := id
          clock := le_rfl, joins := fun _ ↦ id, ended := fun _ _ ↦ id, begun := fun _ _ ↦ id
          joined := fun hj ↦ hno hj, spawned := fun hj ↦ hno hj, state := fun hj ↦ hno hj
          late := fun j ↦ by
            by_cases hj : j = r.i
            · subst hj
              rw [Ctl.setW_self]
            · rw [Ctl.setW_of_ne _ _ hj] }
    | rc n =>
      simp only [SupPc.next, Option.ite_none_left_eq_some, Option.some.injEq, Prod.mk.injEq] at hn
      obtain ⟨-, rfl, rfl, -⟩ := hn
      obtain ⟨hj, hone, -⟩ := hfact _ rfl
      refine sup_alike h he hp (by simp) (fun j ho ↦ ?_) (fun g hg ↦ ?_) (.refl _)
      · rcases ho with ho | ho
        · cases ho
        · exact Or.inl (by simpa [SupPc.fact] using ho)
      · cases hg
        exact ⟨hj, hone⟩
    | _ => cases hn
  | createFailState r =>
    obtain ⟨rfl, rfl, rfl⟩ := outcome_inj hn
    obtain ⟨hj, hone⟩ := hfact _ rfl
    refine sup_touch h he hp (by simp) rfl rfl
      ((h.post r.i).stateJoined ((h.post r.i).after _ hone))
      (fun _ ↦ Or.inr (Or.inl (Or.inl rfl))) (fun _ _ ho ↦ ho) ?_
    intro g hg
    cases hg
    simp only [SupFact.Holds, Ctl.handle, Ctl.setW_self]
    exact ⟨hj, hone⟩
  | createFailJoined r =>
    obtain ⟨rfl, rfl, rfl⟩ := outcome_inj hn
    obtain ⟨hj, hone⟩ := hfact _ rfl
    refine sup_touch h he hp (by simp) rfl rfl ((h.post r.i).setJoined hone) (fun _ ↦ Or.inl rfl) ?_
      (by simp [SupPc.fact])
    rintro j hji (ho | ho)
    · exact absurd (by simpa [SupPc.fact] using ho) (Ne.symm hji)
    · cases ho
  | exitLock =>
    simp only [SupPc.next] at hn
    split at hn
    · cases hn
      exact sup_quiet h he hp (by simp) (hnone (Or.inl rfl)) (Or.inl rfl) { Ctl.Alike.refl m with }
    · cases hn

end Steps

/-! ## The invariant -/

/-- Where a public call stands in `awp_pool_shutdown`, by itself or within `awp_pool_destroy`. -/
def Pc.shut? : Pc → Option ShutPc
  | .shut p | .destroy (.shut p) => some p
  | _ => none

structure Sound (c : Config) (s : Pool) : Prop where
  seated : Seated c s
  custody : Custody c s.ctl s.crew
  executes : ∀ n p, (s.thr (.api n)).pc.shut? = some p → p.executes = true →
    s.ctl.executor = some (.api n)
  known : ∀ n p, (s.thr (.api n)).pc.shut? = some p → Known c s.ctl s.crew p.facts
  rings : ∀ i, RingInv c.capacity (s.shard i)

section Sound

variable {c : Config} {s s' : Pool}

theorem Sound.init (now : Nat) : Sound c (Pool.init c now) where
  seated := .init now
  custody := .init now
  executes _ _ h := by cases h
  known _ _ h := by cases h
  rings := RingInv.pool_init now

/-- A worker's thread that has started and not returned is the current one. -/
theorem Sound.live_cur (h : Sound c s) {i k : Nat} (hlive : s.crew.stage i k = .live) :
    k = (s.ctl.w i).cur := by
  have hpost := h.custody.post i
  by_contra hne
  rcases Nat.lt_or_gt_of_ne hne with hlt | hgt
  · have hend := (hpost.past k hlt).1
    rw [hlive] at hend
    cases hend
  · have hfresh := (hpost.future k hgt).1
    rw [hlive] at hfresh
    cases hfresh

/-- Who pops: the current thread of the worker, or the executor once that thread has returned. -/
theorem Sound.pops_cases (h : Sound c s) {a : Agent} {i : Nat} (hp : s.pops c a i) :
    (a = .worker i (s.ctl.w i).cur ∧ (s.thr a).pc = .worker .pop) ∨
    (s.ctl.executor = some a ∧ s.ctl.supervisorJoined = true ∧
      s.crew.stage i (s.ctl.w i).cur = .ended ∧ ∃ x, (s.thr a).pc.shut? = some (.drainPop x i)) := by
  have hrun := h.seated.runs a
  have hshut : ∀ n p, (s.thr (.api n)).pc.shut? = some p →
      p.place c = .call i (.pop c.ringMode.singleConsumer) →
      s.ctl.executor = some (.api n) ∧ s.ctl.supervisorJoined = true ∧
        s.crew.stage i (s.ctl.w i).cur = .ended ∧ ∃ x, p = .drainPop x i := by
    intro n p hpc hplace
    have hdrain : ∃ x, p = .drainPop x i := by
      cases p <;> simp only [ShutPc.place, reduceCtorEq] at hplace <;> grind
    obtain ⟨x, rfl⟩ := hdrain
    have hk := h.known n _ hpc
    simp only [ShutPc.facts, Known.cons] at hk
    exact ⟨h.executes n _ hpc rfl, hk.2.1.1, hk.2.1.2, x, rfl⟩
  rw [Pool.pops] at hp
  cases hpc : (s.thr a).pc with
  | api p =>
    rw [hpc] at hp
    cases p <;> simp [Pc.place, ApiPc.place] at hp
  | shut p =>
    rw [hpc] at hp hrun
    cases a <;> simp only [Agent.runs, Bool.false_eq_true] at hrun
    obtain ⟨hx, hs, he, x, rfl⟩ := hshut _ p (by rw [hpc]; rfl) hp
    exact Or.inr ⟨hx, hs, he, x, rfl⟩
  | destroy p =>
    rw [hpc] at hp hrun
    cases a <;> simp only [Agent.runs, Bool.false_eq_true] at hrun
    cases p with
    | shut p =>
      obtain ⟨hx, hs, he, x, rfl⟩ := hshut _ p (by rw [hpc]; rfl) hp
      exact Or.inr ⟨hx, hs, he, x, rfl⟩
    | _ => simp [Pc.place, DestroyPc.place] at hp
  | worker p =>
    rw [hpc] at hp hrun
    cases a <;> simp only [Agent.runs, Bool.false_eq_true] at hrun
    rename_i j k
    cases p <;> simp only [Pc.place, WorkerPc.place, reduceCtorEq, Place.call.injEq,
      and_false] at hp
    obtain ⟨rfl, -⟩ := hp
    have hlive : s.crew.stage j k = .live := by
      simp only [Pool.crew, hpc]
      rfl
    exact Or.inl ⟨by rw [h.live_cur hlive], rfl⟩
  | sup p =>
    rw [hpc] at hp
    cases p <;> simp [Pc.place, SupPc.place] at hp
  | helper p =>
    rw [hpc] at hp
    cases hp

/-- At most one party at a time consumes. -/
theorem Sound.sole (h : Sound c s) : s.Sole c := by
  have hlive : ∀ i, (s.thr (.worker i (s.ctl.w i).cur)).pc = .worker .pop →
      s.crew.stage i (s.ctl.w i).cur ≠ .ended := by
    intro i hpc
    simp only [Pool.crew, hpc]
    decide
  intro i a b ha hb
  rcases h.pops_cases ha with ⟨ha, hpa⟩ | ⟨ha, -, hea, -⟩ <;>
    rcases h.pops_cases hb with ⟨hb, hpb⟩ | ⟨hb, -, heb, -⟩
  · rw [ha, hb]
  · exact absurd heb (hlive i (ha ▸ hpa))
  · exact absurd hea (hlive i (hb ▸ hpb))
  · exact Option.some.inj (ha.symm.trans hb)

/-- What a call knows that is not the executor is not about the pool. -/
theorem known_observer {m m' : Ctl} {T T' : Crew} {p : ShutPc} (hp : p.executes = false)
    (hk : Known c m T p.facts) : Known c m' T' p.facts := by
  cases p with
  | cas life =>
    refine Known.cons.2 ⟨?_, .nil⟩
    exact (Known.cons.1 hk).1
  | _ => first | exact .nil | cases hp

theorem Pool.crew_api {n : Nat} {t : Thread} (m : Ctl) (d : Dat) :
    ({ s with ctl := m, dat := d, thr := Function.update s.thr (.api n) t } : Pool).crew =
      s.crew := by
  simp [Pool.crew]

theorem Pool.crew_worker {i j : Nat} {p : WorkerPc} {sh : Nat} {l : Loc Nat Nat} (m : Ctl) (d : Dat) :
    ({ s with
      ctl := m
      dat := d
      thr := Function.update s.thr (.worker i j) ⟨.worker p, sh, l⟩ } : Pool).crew =
      s.crew.setStage i j p.stage := by
  simp only [Pool.crew, Crew.setStage, Crew.mk.injEq, ne_eq, reduceCtorEq, not_false_eq_true,
    Function.update_of_ne, and_true]
  funext i' j'
  by_cases hi : i' = i
  · subst hi
    rw [Function.update_self]
    by_cases hj : j' = j
    · subst hj
      simp only [Function.update_self]
      rfl
    · rw [Function.update_of_ne hj, Function.update_of_ne (by simpa using hj)]
  · rw [Function.update_of_ne hi, Function.update_of_ne (by simp [hi])]

theorem Pool.crew_sup {p : SupPc} {sh : Nat} {l : Loc Nat Nat} (m : Ctl) (d : Dat) :
    ({ s with
      ctl := m
      dat := d
      thr := Function.update s.thr .sup ⟨.sup p, sh, l⟩ } : Pool).crew = { s.crew with sup := p } := by
  simp [Pool.crew, Pc.asSup]

theorem Pool.crew_helper {j : Nat} {p : HelperPc} {sh : Nat} {l : Loc Nat Nat} (m : Ctl) (d : Dat) :
    ({ s with
      ctl := m
      dat := d
      thr := Function.update s.thr (.helper j) ⟨.helper p, sh, l⟩ } : Pool).crew =
      { s.crew with helper := Function.update s.crew.helper j p } := by
  simp only [Pool.crew, Crew.mk.injEq, ne_eq, reduceCtorEq, not_false_eq_true,
    Function.update_of_ne, true_and]
  funext j'
  by_cases hj : j' = j
  · subst hj
    simp only [Function.update_self]
    rfl
  · rw [Function.update_of_ne hj, Function.update_of_ne (by simpa using hj)]

theorem DestroyPc.next_cases {m m' : Ctl} {d : Dat} {me : Agent} {l : Loc Nat Nat} {x : Choice}
    {p p' : DestroyPc} {k : Cmd} (hn : p.next c m d me l x = some (m', p', k)) :
    (∃ q q', p = .shut q ∧ p' = .shut q' ∧
      q.next c m d.activeSubmits me l x = some (m', q', k)) ∨
    (m.Alike m' ∧ ∀ q, p' = .shut q → q = .start) := by
  cases p with
  | shut q =>
    by_cases hq : ∃ rc, q = .done rc
    · obtain ⟨rc, rfl⟩ := hq
      obtain ⟨rfl, rfl, rfl⟩ := outcome_inj hn
      exact Or.inr ⟨.refl m, by simp⟩
    · rw [DestroyPc.next_shut (fun rc hrc ↦ hq ⟨rc, hrc⟩), Option.map_eq_some_iff] at hn
      obtain ⟨⟨m₁, q', k₁⟩, hn, he⟩ := hn
      simp only [Prod.mk.injEq] at he
      obtain ⟨rfl, rfl, rfl⟩ := he
      exact Or.inl ⟨q, q', rfl, rfl, hn⟩
  | released | leaked | refused => cases hn
  | lock | relock =>
    right
    simp only [DestroyPc.next, Option.map_eq_some_iff, Prod.mk.injEq] at hn
    obtain ⟨m₁, hm, rfl, rfl, -⟩ := hn
    exact ⟨Ctl.lockLife_alike hm, by simp⟩
  | refsMark | leakMark =>
    obtain ⟨rfl, rfl, rfl⟩ := outcome_inj hn
    exact Or.inr ⟨m.markQuarantined_alike, by simp⟩
  | refsFrames | leakFrames | unlock | release =>
    obtain ⟨rfl, rfl, rfl⟩ := outcome_inj hn
    exact Or.inr ⟨{ Ctl.Alike.refl m with }, by simp⟩
  | lifeLoad =>
    obtain ⟨rfl, rfl, rfl⟩ := outcome_inj hn
    refine Or.inr ⟨.refl m, fun q hq ↦ ?_⟩
    split at hq
    · cases hq
    · exact (DestroyPc.shut.inj hq).symm
  | cas | waiters | blocked ticket | ckWorker i | joined i =>
    right
    simp only [DestroyPc.next] at hn
    split at hn <;> cases hn <;> refine ⟨{ Ctl.Alike.refl m with }, ?_⟩ <;>
      intro q hq <;> first | cases hq | (split at hq <;> cases hq)
  | refs spins | ckQuarantined | ckActive | ckRefs | ckSup | state i =>
    obtain ⟨rfl, rfl, rfl⟩ := outcome_inj hn
    refine Or.inr ⟨.refl m, fun q hq ↦ ?_⟩
    split at hq
    · first | cases hq | (split at hq <;> cases hq)
    · cases hq

/-- The part of the invariant about public calls, after a step of one of them. -/
theorem Sound.shut_step (h : Sound c s) {n : Nat} {q q' : ShutPc} {m : Ctl} {active : Int}
    {l : Loc Nat Nat} {x : Choice} {k : Cmd} (hq : (s.thr (.api n)).pc.shut? = some q)
    (hn : q.next c s.ctl active (.api n) l x = some (m, q', k)) :
    Custody c m s.crew ∧ (q'.executes = true → m.executor = some (.api n)) ∧
      Known c m s.crew q'.facts ∧
      ∀ n' p, n' ≠ n → (s.thr (.api n')).pc.shut? = some p →
        (p.executes = true → m.executor = some (.api n')) ∧ Known c m s.crew p.facts := by
  have hexec : q.executes = true → s.ctl.executor ≠ none := fun hx ↦ by
    rw [h.executes n q hq hx]
    nofun
  obtain ⟨hc, hk⟩ := q.next_known h.custody (h.known n q hq) hexec hn
  refine ⟨hc, ?_⟩
  cases hx : q.executes with
  | true =>
    -- the executor moves: nobody else knows anything about the pool
    have hme := h.executes n q hq hx
    have hkeep : m.executor = s.ctl.executor := by
      rcases ShutPc.next_executor hn with he | ⟨life, rfl, -⟩
      · exact he
      · cases hx
    refine ⟨fun _ ↦ hkeep.trans hme, hk, fun n' p hne hp ↦ ?_⟩
    have hp' : p.executes = false := by
      by_contra hpe
      have he := h.executes n' p hp (by simpa using hpe)
      rw [hme, Option.some.injEq, Agent.api.injEq] at he
      exact hne he.symm
    exact ⟨fun hpe ↦ absurd hpe (by rw [hp']; decide), known_observer hp' (h.known n' p hp)⟩
  | false =>
    rcases ShutPc.next_observer hx hn with ⟨hx', ha⟩ | ⟨life, rfl, hlife, rfl, rfl⟩
    · refine ⟨fun he ↦ ?_, hk, fun n' p _ hp ↦ ⟨fun hpe ↦ ?_, (h.known n' p hp).stable ha.rely⟩⟩
      · rw [hx'] at he
        cases he
      · exact ha.executor.trans (h.executes n' p hp hpe)
    · -- there was no executor before
      have hnone := h.custody.running (hlife ▸ h.known n _ hq _ (List.mem_singleton_self _))
      refine ⟨fun _ ↦ rfl, hk, fun n' p _ hp ↦ ?_⟩
      have hp' : p.executes = false := by
        by_contra hpe
        rw [h.executes n' p hp (by simpa using hpe)] at hnone
        cases hnone
      exact ⟨fun hpe ↦ absurd hpe (by rw [hp']; decide), known_observer hp' (h.known n' p hp)⟩

/-- After a step of a created thread, which the calls only rely on. -/
theorem Sound.rely_step (h : Sound c s) {m : Ctl} {T : Crew} (hr : Rely c s.ctl m s.crew T)
    {n : Nat} {p : ShutPc} (hp : (s.thr (.api n)).pc.shut? = some p) :
    (p.executes = true → m.executor = some (.api n)) ∧ Known c m T p.facts :=
  ⟨fun hx ↦ hr.executor.trans (h.executes n p hp hx), (h.known n p hp).stable hr⟩

theorem Sound.ended_eq (h : Sound c s) : s.ended = s.crew.ended := by
  funext a
  have hrun := h.seated.runs a
  rw [Pool.ended]
  cases hpc : (s.thr a).pc with
  | worker p =>
    rw [hpc] at hrun
    cases a <;> simp only [Agent.runs, Bool.false_eq_true] at hrun
    simp only [Crew.ended, Pool.crew, hpc]
    cases p <;> rfl
  | sup p =>
    rw [hpc] at hrun
    cases a <;> simp only [Agent.runs, Bool.false_eq_true] at hrun
    simp only [Crew.ended, Pool.crew, hpc]
    cases p <;> rfl
  | api p | shut p | destroy p | helper p =>
    rw [hpc] at hrun
    cases a <;> simp only [Agent.runs, Bool.false_eq_true] at hrun
    rfl

theorem Sound.step (h : Sound c s) {e : Label} (hst : s.step c e = some s') : Sound c s' := by
  suffices hcalls : Custody c s'.ctl s'.crew ∧ ∀ n p, (s'.thr (.api n)).pc.shut? = some p →
      (p.executes = true → s'.ctl.executor = some (.api n)) ∧ Known c s'.ctl s'.crew p.facts from
    { seated := h.seated.step hst
      custody := hcalls.1
      executes := fun n p hp ↦ (hcalls.2 n p hp).1
      known := fun n p hp ↦ (hcalls.2 n p hp).2
      rings := fun i ↦ RingInv.pool_step h.rings h.seated h.sole hst i }
  rcases Pool.step_cases hst with ⟨t, -, rfl⟩ | ⟨n, pc, hpc, hstart, rfl⟩ |
    ⟨a, x, spurious, r, l, -, -, hact, -, hstep, rfl⟩ |
    ⟨a, x, m, d, pc, k, sh, l, -, hex, hact, hnext, hk, rfl⟩
  · have ha : s.ctl.Alike { s.ctl with clock := s.ctl.clock + t } :=
      { Ctl.Alike.refl s.ctl with clock := Nat.le_add_right _ _ }
    exact ⟨h.custody.alike ha, fun n p hp ↦ h.rely_step ha.rely hp⟩
  · have hnew : ∀ p, pc.shut? = some p → p.executes = false ∧ p.facts = [] := by
      intro p hp
      rcases hstart with ⟨pool, f, -, rfl⟩ | ⟨tls, -, rfl⟩ | ⟨-, rfl⟩
      · cases hp
      · cases tls <;> cases hp <;> exact ⟨rfl, rfl⟩
      · cases hp
    rw [Pool.crew_api s.ctl s.dat]
    refine ⟨h.custody, fun n' p hp ↦ ?_⟩
    by_cases hn : n' = n
    · subst hn
      simp only [Function.update_self] at hp
      obtain ⟨hx, hf⟩ := hnew p hp
      exact ⟨fun hx' ↦ absurd hx' (by rw [hx]; decide), hf ▸ .nil⟩
    · simp only [Function.update_of_ne (show Agent.api n' ≠ .api n by simpa using hn)] at hp
      exact ⟨h.executes n' p hp, h.known n' p hp⟩
  · -- an access to a ring moves nobody in its own program
    have hpcs : ∀ b, (Function.update s.thr a { s.thr a with loc := l } b).pc = (s.thr b).pc := by
      intro b
      by_cases hb : b = a
      · subst hb
        rw [Function.update_self]
      · rw [Function.update_of_ne hb]
    have hcrew : ({ s with
        dat := s.dat.notePublish c (s.thr a).sh (s.thr a).loc
        ring := Function.update s.ring (s.thr a).sh r
        thr := Function.update s.thr a { s.thr a with loc := l } } : Pool).crew = s.crew := by
      simp only [Pool.crew, hpcs]
    rw [hcrew]
    refine ⟨h.custody, fun n p hp ↦ ?_⟩
    rw [hpcs] at hp
    exact ⟨h.executes n p hp, h.known n p hp⟩
  · rcases Pool.next_cases (h.seated.runs a) hnext with
      ⟨n, p, p', rfl, hp, rfl, rfl, hn⟩ | ⟨n, p, p', rfl, hp, rfl, rfl, hn⟩ |
      ⟨n, p, p', rfl, hp, rfl, rfl, hn⟩ | ⟨i, j, p, p', rfl, hp, rfl, rfl, hn⟩ |
      ⟨p, p', rfl, hp, rfl, rfl, hn⟩ | ⟨j, p, p', rfl, hp, rfl, rfl, hn⟩
    · rw [Pool.crew_api]
      refine ⟨h.custody, fun n' q hq ↦ ?_⟩
      by_cases hne : n' = n
      · subst hne
        simp only [Function.update_self] at hq
        cases hq
      · simp only [Function.update_of_ne (show Agent.api n' ≠ .api n by simpa using hne)] at hq
        exact ⟨h.executes n' q hq, h.known n' q hq⟩
    · rw [Pool.crew_api]
      obtain ⟨hc, hx, hkn, hothers⟩ := h.shut_step (by rw [hp]; rfl) hn
      refine ⟨hc, fun n' q hq ↦ ?_⟩
      by_cases hne : n' = n
      · subst hne
        simp only [Function.update_self] at hq
        cases hq
        exact ⟨hx, hkn⟩
      · simp only [Function.update_of_ne (show Agent.api n' ≠ .api n by simpa using hne)] at hq
        exact hothers n' q hne hq
    · rw [Pool.crew_api]
      rcases DestroyPc.next_cases hn with ⟨q, q', rfl, rfl, hn'⟩ | ⟨ha, hstart⟩
      · obtain ⟨hc, hx, hkn, hothers⟩ := h.shut_step (by rw [hp]; rfl) hn'
        refine ⟨hc, fun n' p hq ↦ ?_⟩
        by_cases hne : n' = n
        · subst hne
          simp only [Function.update_self] at hq
          cases hq
          exact ⟨hx, hkn⟩
        · simp only [Function.update_of_ne (show Agent.api n' ≠ .api n by simpa using hne)] at hq
          exact hothers n' p hne hq
      · refine ⟨h.custody.alike ha, fun n' q hq ↦ ?_⟩
        by_cases hne : n' = n
        · subst hne
          simp only [Function.update_self] at hq
          have hq' : p' = .shut q := by
            cases p' <;> simp only [Pc.shut?, Option.some.injEq, reduceCtorEq] at hq
            rw [hq]
          rw [hstart q hq']
          exact ⟨nofun, .nil⟩
        · simp only [Function.update_of_ne (show Agent.api n' ≠ .api n by simpa using hne)] at hq
          exact h.rely_step ha.rely hq
    · simp only [Pool.exists, decide_eq_true_eq] at hex
      have hst : s.crew.stage i j = p.stage := by
        simp only [Pool.crew, hp]
        rfl
      obtain ⟨hc, hr⟩ := custody_worker h.custody hex.2 hst hn
      rw [Pool.crew_worker]
      refine ⟨hc, fun n' q hq ↦ h.rely_step hr ?_⟩
      simpa using hq
    · have hsup : s.crew.sup = p := by
        simp only [Pool.crew, hp]
        rfl
      rw [h.ended_eq] at hn
      obtain ⟨hc, hr⟩ := custody_sup h.custody hex hsup hn
      rw [Pool.crew_sup]
      refine ⟨hc, fun n' q hq ↦ h.rely_step hr ?_⟩
      simpa using hq
    · have hhelper : s.crew.helper j = p := by
        simp only [Pool.crew, hp]
        rfl
      rw [h.ended_eq] at hn
      obtain ⟨hc, hr⟩ := custody_helper h.custody (of_decide_eq_true hex) hhelper hn
      rw [Pool.crew_helper]
      refine ⟨hc, fun n' q hq ↦ h.rely_step hr ?_⟩
      simpa using hq

/-- **The invariant of the pool** holds in every state of every run. -/
theorem Sound.run {ok : Pool → Label → Prop} {now : Nat}
    (hrun : Steps (Pool.step c) ok (Pool.init c now) s) : Sound c s :=
  hrun.invariant (fun _ _ _ hs _ hst ↦ hs.step hst) (.init now)

end Sound

end Awp