import AsyncWorkerPool.Pool.Post

/-!
# Custody — who may touch a worker, and when its threads have gone

The threads that the pool creates (`Crew`) and the control words that shutdown, the supervisor and
the workers write about them.  `Custody` is what is always true of the two together.  What the
supervisor and the executing shutdown call know beyond that depends on where they stand: a location
carries at most one `SupFact`, or a list of `Fact`s.  A fact survives everything that the other
parties may do meanwhile (`Rely`), so that it is enough to follow each program by itself.
-/

open Foundation

namespace Awp

/-! ## The created threads -/

def Pc.asSup : Pc → SupPc
  | .sup p => p
  | _ => .returned

def Pc.asHelper : Pc → HelperPc
  | .helper p => p
  | _ => .done

/-- Where the threads stand that the pool has created or will create. -/
structure Crew where
  stage : Nat → Nat → Stage
  sup : SupPc
  helper : Nat → HelperPc

def Pool.crew (s : Pool) : Crew where
  stage i k := (s.thr (.worker i k)).pc.stage
  sup := (s.thr .sup).pc.asSup
  helper j := (s.thr (.helper j)).pc.asHelper

/-- Thread `k` of worker `i` has come to stage `g`. -/
def Crew.setStage (T : Crew) (i k : Nat) (g : Stage) : Crew :=
  { T with stage := Function.update T.stage i (Function.update (T.stage i) k g) }

@[simp] theorem Crew.setStage_self (T : Crew) (i k : Nat) (g : Stage) :
    (T.setStage i k g).stage i = Function.update (T.stage i) k g := by simp [Crew.setStage]

theorem Crew.setStage_of_ne (T : Crew) {i j : Nat} (k : Nat) (g : Stage) (h : j ≠ i) :
    (T.setStage i k g).stage j = T.stage j := by simp [Crew.setStage, h]

/-- Which threads have returned. -/
def Crew.ended (T : Crew) : Agent → Bool
  | .worker i k => T.stage i k = .ended
  | .sup => T.sup = .returned
  | _ => false

/-- The words that custody rests on are the same, but the pool may have been quarantined and time
may have passed. -/
structure Ctl.Alike (m m' : Ctl) : Prop where
  state : ∀ i, (m'.w i).state = (m.w i).state
  joined : ∀ i, (m'.w i).joined = (m.w i).joined
  spawned : ∀ i, (m'.w i).spawned = (m.w i).spawned
  late : ∀ i, (m'.w i).late = (m.w i).late
  joins : m'.joins = m.joins
  helpers : m'.helpers = m.helpers
  target : m'.target = m.target
  box : m'.box = m.box
  supJoined : m'.supervisorJoined = m.supervisorJoined
  lifecycle : m'.lifecycle = m.lifecycle
  executor : m'.executor = m.executor
  quarantined : m.quarantined = true → m'.quarantined = true
  clock : m.clock ≤ m'.clock

theorem Ctl.join_joins_self (m : Ctl) (a : Agent) : (m.join a).joins a = m.joins a + 1 :=
  Function.update_self _ _ _

theorem Ctl.join_joins_of_ne (m : Ctl) {a b : Agent} (h : b ≠ a) :
    (m.join a).joins b = m.joins b := Function.update_of_ne h _ _

/-! ## What the supervisor knows -/

/-- What the supervisor knows about the worker it is handling. -/
inductive SupFact where
  /-- Its thread has not been joined. -/
  | unjoined (i : Nat)
  /-- The supervisor has joined its thread, and nobody knows yet. -/
  | collected (i : Nat)
  /-- Its thread has been joined, and `joined` says so. -/
  | joined (i : Nat)
  /-- `collected`, with the state set for a new thread. -/
  | launching (i : Nat)
  /-- Its thread has started. -/
  | up (i : Nat)
  deriving DecidableEq

def SupPc.fact : SupPc → Option SupFact
  | .afterStop r _ | .afterProgress r _ | .quarState r => some (.up r.i)
  | .join r => some (.unjoined r.i)
  | .setJoined r | .startState r | .createFailState r | .createFailJoined r =>
    some (.collected r.i)
  | .setState r | .ask (.joined r) | .askStop (.joined r) | .reopen r | .stampProgress r
  | .ask (.reopened r) | .askStop (.reopened r) | .startStop r | .startJoined r =>
    some (.joined r.i)
  | .startGeneration r | .create r => some (.launching r.i)
  | _ => none

def SupFact.Holds (m : Ctl) (T : Crew) : SupFact → Prop
  | .unjoined i => (m.w i).joined = false ∧ m.joins (m.handle i) = 0
  | .collected i => (m.w i).joined = false ∧ m.joins (m.handle i) = 1
  | .joined i => (m.w i).joined = true
  | .launching i => (m.w i).joined = false ∧ m.joins (m.handle i) = 1 ∧
    ((m.w i).state = .starting ∨ ((m.w i).state = .quarantined ∧ (m.w i).late = true))
  | .up i => T.stage i (m.w i).cur ≠ .fresh

/-- The supervisor has joined the thread of worker `i` without having noted it. -/
def SupPc.owes (p : SupPc) (i : Nat) : Prop :=
  p.fact = some (.collected i) ∨ p.fact = some (.launching i)

/-! ## What is always true -/

structure Custody (c : Config) (m : Ctl) (T : Crew) : Prop where
  post : ∀ i, Post (m.w i) (T.stage i) (fun k ↦ m.joins (.worker i k))
  /-- A joined thread is on record, or about to be. -/
  record : ∀ i, m.joins (m.handle i) = 1 → (m.w i).joined = true ∨ T.sup.owes i ∨
    ∃ h < m.helpers, m.target h = m.handle i
  sup : ∀ f, T.sup.fact = some f → f.Holds m T
  supOnce : m.joins .sup ≤ 1
  supAfter : m.joins .sup = 1 → T.sup = .returned
  supHelper : m.joins .sup = 1 → ∃ h < m.helpers, m.target h = .sup
  supJoined : m.supervisorJoined = true → c.enableSupervisor = true → m.joins .sup = 1
  supAbsent : c.enableSupervisor = false → m.supervisorJoined = true ∧ T.sup = .phase
  unborn : ∀ h ≥ m.helpers, T.helper h = .join ∧ m.box h = none
  joining : ∀ h < m.helpers, T.helper h = .join → m.joins (m.target h) = 0
  posting : ∀ h, T.helper h = .post 0 → m.joins (m.target h) = 1
  boxed : ∀ h, m.box h = some 0 → m.joins (m.target h) = 1
  apart : ∀ h < m.helpers, ∀ h' < m.helpers, m.target h = m.target h' → h = h'
  target : ∀ h < m.helpers, m.target h = .sup ∨
    ∃ i, i < c.nWorkers ∧ m.target h = m.handle i ∧ m.supervisorJoined = true
  calm : m.executor = none → m.helpers = 0 ∧ ∀ i, (m.w i).late = false
  running : m.lifecycle = .init ∨ m.lifecycle = .running → m.executor = none
  stopped : m.lifecycle = .stopped → m.quarantined = true ∨
    (m.supervisorJoined = true ∧ ∀ i < c.nWorkers, (m.w i).joined = true)

/-- The supervisor will not move again. -/
def SupDone (c : Config) (T : Crew) : Prop := c.enableSupervisor = false ∨ T.sup = .returned

namespace Custody

variable {c : Config} {m m' : Ctl} {T T' : Crew}

theorem supDone (h : Custody c m T) (hj : m.supervisorJoined = true) : SupDone c T := by
  cases he : c.enableSupervisor with
  | false => exact Or.inl he
  | true => exact Or.inr (h.supAfter (h.supJoined hj he))

theorem no_fact_of_supDone (h : Custody c m T) (hd : SupDone c T) : T.sup.fact = none := by
  rcases hd with he | hr
  · rw [(h.supAbsent he).2]
    rfl
  · rw [hr]
    rfl

/-- Once the supervisor has gone, the joins on record are those of the helpers. -/
theorem record_done (h : Custody c m T) (hj : m.supervisorJoined = true) {i : Nat}
    (hone : m.joins (m.handle i) = 1) :
    (m.w i).joined = true ∨ ∃ h < m.helpers, m.target h = m.handle i := by
  rcases h.record i hone with hjoined | howes | hhelper
  · exact Or.inl hjoined
  · have hnone := h.no_fact_of_supDone (h.supDone hj)
    rcases howes with howes | howes <;> rw [hnone] at howes <;> cases howes
  · exact Or.inr hhelper

theorem init (now : Nat) : Custody c (Pool.init c now).ctl (Pool.init c now).crew where
  post _ := Post.init now
  record _ h := by cases h
  sup _ h := by cases h
  supOnce := Nat.zero_le _
  supAfter h := by cases h
  supHelper h := by cases h
  supJoined h he := by simp [Pool.init, he] at h
  supAbsent he := ⟨by simp [Pool.init, he], rfl⟩
  unborn _ _ := ⟨rfl, rfl⟩
  joining _ h := absurd h (Nat.not_lt_zero _)
  posting _ h := by cases h
  boxed _ h := by cases h
  apart _ h := absurd h (Nat.not_lt_zero _)
  target _ h := absurd h (Nat.not_lt_zero _)
  calm _ := ⟨rfl, fun _ ↦ rfl⟩
  running _ := rfl
  stopped h := by cases h

/-! ### What keeps it -/

theorem alike (h : Custody c m T) (ha : m.Alike m') : Custody c m' T := by
  have hhandle : m'.handle = m.handle := by
    funext i
    simp only [Ctl.handle, ha.spawned]
  have hcur : ∀ i, (m'.w i).cur = (m.w i).cur := fun i ↦ by
    rw [Worker.cur, ha.spawned, Worker.cur]
  exact
    { post := fun i ↦ by
        rw [ha.joins]
        exact (h.post i).congr (ha.state i) (ha.joined i) (ha.spawned i)
          (fun hl ↦ (ha.late i).trans hl)
      record := by simpa only [ha.joins, hhandle, ha.joined, ha.helpers, ha.target] using h.record
      sup := fun f hf ↦ by
        have hf' := h.sup f hf
        cases f <;>
          simpa only [SupFact.Holds, ha.joined, ha.joins, hhandle, ha.state, ha.late, hcur] using hf'
      supOnce := ha.joins ▸ h.supOnce
      supAfter := ha.joins ▸ h.supAfter
      supHelper := by simpa only [ha.joins, ha.helpers, ha.target] using h.supHelper
      supJoined := by simpa only [ha.joins, ha.supJoined] using h.supJoined
      supAbsent := by simpa only [ha.supJoined] using h.supAbsent
      unborn := by simpa only [ha.helpers, ha.box] using h.unborn
      joining := by simpa only [ha.helpers, ha.joins, ha.target] using h.joining
      posting := by simpa only [ha.joins, ha.target] using h.posting
      boxed := by simpa only [ha.joins, ha.target, ha.box] using h.boxed
      apart := by simpa only [ha.helpers, ha.target] using h.apart
      target := by simpa only [ha.helpers, ha.target, hhandle, ha.supJoined] using h.target
      calm := by simpa only [ha.executor, ha.helpers, ha.late] using h.calm
      running := by simpa only [ha.lifecycle, ha.executor] using h.running
      stopped := fun hl ↦ by
        rw [ha.lifecycle] at hl
        simp only [ha.supJoined, ha.joined]
        exact (h.stopped hl).imp_left ha.quarantined }

/-- The record of one worker is written; with it the supervisor or a thread of that worker may
move. -/
theorem touch (h : Custody c m T) (i : Nat) (f : Worker → Worker)
    (hsup : T'.sup = T.sup ∨ (c.enableSupervisor = true ∧ m.joins .sup ≠ 1))
    (hhelper : T'.helper = T.helper) (hstage : ∀ j ≠ i, T'.stage j = T.stage j)
    (hspawned : (f (m.w i)).spawned = (m.w i).spawned)
    (hpost : Post (f (m.w i)) (T'.stage i) (fun k ↦ m.joins (.worker i k)))
    (hrecord : m.joins (m.handle i) = 1 → (f (m.w i)).joined = true ∨ T'.sup.owes i ∨
      ∃ h < m.helpers, m.target h = m.handle i)
    (howes : ∀ j ≠ i, T.sup.owes j → T'.sup.owes j)
    (hfact : ∀ g, T'.sup.fact = some g → g.Holds (m.setW i f) T')
    (hlate : m.executor = none → (f (m.w i)).late = (m.w i).late)
    (hjoined : m.supervisorJoined = true → (m.w i).joined = true → (f (m.w i)).joined = true) :
    Custody c (m.setW i f) T' := by
  have hhandle : (m.setW i f).handle = m.handle := by
    funext j
    by_cases hj : j = i
    · subst hj
      simp only [Ctl.handle, Ctl.setW_self, hspawned]
    · simp only [Ctl.handle, Ctl.setW_of_ne _ _ hj]
  refine
    { post := fun j ↦ ?_
      record := fun j hone ↦ ?_
      sup := hfact
      supOnce := h.supOnce
      supAfter := fun hone ↦ ?_
      supHelper := h.supHelper
      supJoined := h.supJoined
      supAbsent := fun he ↦ ?_
      unborn := fun k hk ↦ by rw [hhelper]; exact h.unborn k hk
      joining := fun k hk ↦ by rw [hhelper]; exact h.joining k hk
      posting := fun k ↦ by rw [hhelper]; exact h.posting k
      boxed := h.boxed
      apart := h.apart
      target := by rw [hhandle]; exact h.target
      calm := fun he ↦ ⟨(h.calm he).1, fun j ↦ ?_⟩
      running := h.running
      stopped := fun hl ↦ (h.stopped hl).imp_right fun ⟨hs, hall⟩ ↦ ⟨hs, fun j hj ↦ ?_⟩ }
  · by_cases hj : j = i
    · subst hj
      rw [Ctl.setW_self]
      exact hpost
    · rw [Ctl.setW_of_ne _ _ hj, hstage j hj]
      exact h.post j
  · rw [hhandle] at hone ⊢
    by_cases hj : j = i
    · subst hj
      rw [Ctl.setW_self]
      exact hrecord hone
    · rw [Ctl.setW_of_ne _ _ hj]
      exact (h.record j hone).imp_right (Or.imp_left (howes j hj))
  · rcases hsup with hs | ⟨-, hn⟩
    · rw [hs]
      exact h.supAfter hone
    · exact absurd hone hn
  · rcases hsup with hs | ⟨ht, -⟩
    · rw [hs]
      exact h.supAbsent he
    · rw [he] at ht
      cases ht
  · by_cases hj : j = i
    · subst hj
      rw [Ctl.setW_self, hlate he]
      exact (h.calm he).2 j
    · rw [Ctl.setW_of_ne _ _ hj]
      exact (h.calm he).2 j
  · by_cases hji : j = i
    · subst hji
      rw [Ctl.setW_self]
      exact hjoined hs (hall j hj)
    · rw [Ctl.setW_of_ne _ _ hji]
      exact hall j hj

/-- The supervisor moves and writes nothing that custody rests on. -/
theorem think (h : Custody c m T) {p : SupPc} (he : c.enableSupervisor = true)
    (hret : T.sup ≠ .returned) (howes : ∀ j, T.sup.owes j → p.owes j)
    (hfact : ∀ g, p.fact = some g → g.Holds m { T with sup := p }) :
    Custody c m { T with sup := p } :=
  { h with
    record := fun j hone ↦ (h.record j hone).imp_right (Or.imp_left (howes j))
    sup := hfact
    supAfter := fun hone ↦ absurd (h.supAfter hone) hret
    supAbsent := fun hn ↦ by rw [he] at hn; cases hn }

theorem fact_worker (h : Custody c m T) {i : Nat} {st : WState} {g : Stage}
    (hcur : T.stage i (m.w i).cur ≠ .ended) (hg : g ≠ .fresh) {f : SupFact}
    (hf : T.sup.fact = some f) :
    f.Holds (m.setW i ({ · with state := st }))
      (T.setStage i (m.w i).cur g) := by
  have hold := h.sup f hf
  have hhandle : (m.setW i ({ · with state := st })).handle = m.handle := by
    funext j
    by_cases hj : j = i
    · subst hj
      simp only [Ctl.handle, Ctl.setW_self]
    · simp only [Ctl.handle, Ctl.setW_of_ne _ _ hj]
  cases f with
  | unjoined j | collected j =>
    simp only [SupFact.Holds, hhandle] at hold ⊢
    refine ⟨?_, hold.2⟩
    by_cases hj : j = i
    · subst hj
      rw [Ctl.setW_self]
      exact hold.1
    · rw [Ctl.setW_of_ne _ _ hj]
      exact hold.1
  | joined j =>
    simp only [SupFact.Holds] at hold ⊢
    by_cases hj : j = i
    · subst hj
      rw [Ctl.setW_self]
      exact hold
    · rw [Ctl.setW_of_ne _ _ hj]
      exact hold
  | launching j =>
    simp only [SupFact.Holds, hhandle] at hold ⊢
    by_cases hj : j = i
    · -- the thread to be replaced has returned, so it is not the one that moves
      subst hj
      exact absurd ((h.post j).after _ hold.2.1) hcur
    · rw [Ctl.setW_of_ne _ _ hj]
      exact hold
  | up j =>
    simp only [SupFact.Holds] at hold ⊢
    by_cases hj : j = i
    · subst hj
      rw [Ctl.setW_self, Crew.setStage_self]
      exact (Function.update_self (m.w j).cur g (T.stage j)).trans_ne hg
    · rw [Ctl.setW_of_ne _ _ hj, Crew.setStage_of_ne _ _ _ hj]
      exact hold

/-- The current thread of worker `i` starts. -/
theorem workerEnter (h : Custody c m T) {i : Nat} (hfresh : T.stage i (m.w i).cur = .fresh) :
    Custody c (m.setW i ({ · with state := .running }))
      (T.setStage i (m.w i).cur .live) := by
  refine h.touch i _ (Or.inl rfl) rfl (fun j hj ↦ T.setStage_of_ne _ _ hj) rfl ?_
    (h.record i) (fun _ _ ho ↦ ho) (fun f hf ↦ ?_) (fun _ ↦ rfl) (fun _ hj ↦ hj)
  · rw [T.setStage_self]
    exact (h.post i).enter hfresh
  · exact h.fact_worker (by rw [hfresh]; decide) (by decide) hf

/-- The current thread of worker `i` returns. -/
theorem workerLeave (h : Custody c m T) {i : Nat} (hlive : T.stage i (m.w i).cur = .live) :
    Custody c (m.setW i ({ · with state := .exited }))
      (T.setStage i (m.w i).cur .ended) := by
  refine h.touch i _ (Or.inl rfl) rfl (fun j hj ↦ T.setStage_of_ne _ _ hj) rfl ?_
    (h.record i) (fun _ _ ho ↦ ho) (fun f hf ↦ ?_) (fun _ ↦ rfl) (fun _ hj ↦ hj)
  · rw [T.setStage_self]
    exact (h.post i).leave
  · exact h.fact_worker (by rw [hlive]; decide) (by decide) hf

/-- The supervisor's own writes are made before anybody has joined it. -/
theorem joins_sup_ne (h : Custody c m T) (hret : T.sup ≠ .returned) : m.joins .sup ≠ 1 :=
  fun hone ↦ hret (h.supAfter hone)

theorem not_supJoined (h : Custody c m T) (he : c.enableSupervisor = true)
    (hret : T.sup ≠ .returned) : m.supervisorJoined = false := by
  cases hj : m.supervisorJoined with
  | false => rfl
  | true => exact absurd (h.supJoined hj he) (h.joins_sup_ne hret)

/-- The supervisor joins the current thread of worker `i`. -/
theorem supJoin (h : Custody c m T) {r : Round} (he : c.enableSupervisor = true)
    (hsup : T.sup = .join r) (hended : T.stage r.i (m.w r.i).cur = .ended) :
    Custody c (m.join (m.handle r.i)) { T with sup := .setJoined r } := by
  have hret : T.sup ≠ .returned := by
    rw [hsup]
    nofun
  obtain ⟨hunjoined, hzero⟩ := h.sup _ (by rw [hsup]; rfl)
  have hnotdone := h.not_supJoined he hret
  have hhelper : ∀ k < m.helpers, m.target k = .sup := fun k hk ↦
    (h.target k hk).resolve_right fun ⟨_, _, _, hd⟩ ↦ by rw [hnotdone] at hd; cases hd
  have hone : (m.join (m.handle r.i)).joins (m.handle r.i) = 1 := by
    rw [Ctl.join_joins_self, hzero]
  have hother : ∀ i k, (i = r.i → k ≠ (m.w i).cur) →
      (m.join (m.handle r.i)).joins (.worker i k) = m.joins (.worker i k) := by
    intro i k hk
    refine Ctl.join_joins_of_ne m ?_
    rw [Ctl.handle, Ne, Agent.worker.injEq]
    rintro ⟨rfl, rfl⟩
    exact hk rfl rfl
  have hsupjoins : (m.join (m.handle r.i)).joins .sup = m.joins .sup := by
    simp [Ctl.join, Ctl.handle]
  refine
    { post := fun i ↦ ?_
      record := fun i hone ↦ ?_
      sup := fun f hf ↦ ?_
      supOnce := hsupjoins ▸ h.supOnce
      supAfter := fun hone ↦ absurd (hsupjoins ▸ hone) (h.joins_sup_ne hret)
      supHelper := fun hone ↦ absurd (hsupjoins ▸ hone) (h.joins_sup_ne hret)
      supJoined := fun hj _ ↦ by
        rw [show m.supervisorJoined = true from hj] at hnotdone
        cases hnotdone
      supAbsent := fun hn ↦ by rw [he] at hn; cases hn
      unborn := h.unborn
      joining := fun k hk hpc ↦ ?_
      posting := fun k hpc ↦ ?_
      boxed := fun k hb ↦ ?_
      apart := h.apart
      target := fun k hk ↦ Or.inl (hhelper k hk)
      calm := h.calm
      running := h.running
      stopped := h.stopped }
  · by_cases hi : i = r.i
    · subst hi
      exact (h.post r.i).join hended hone fun k hk ↦ hother r.i k fun _ ↦ hk
    · simp only [hother i _ fun he ↦ absurd he hi]
      exact h.post i
  · by_cases hi : i = r.i
    · subst hi
      exact Or.inr (Or.inl (Or.inl rfl))
    · rw [show (m.join (m.handle r.i)).handle i = .worker i (m.w i).cur from rfl,
        hother i _ fun he ↦ absurd he hi] at hone
      rcases h.record i hone with hj | howes | hk
      · exact Or.inl hj
      · rcases howes with howes | howes <;> rw [hsup] at howes <;> cases howes
      · exact Or.inr (Or.inr hk)
  · cases hf
    exact ⟨hunjoined, hone⟩
  · have ht := hhelper k hk
    have hj := h.joining k hk hpc
    rw [ht] at hj
    rw [show (m.join (m.handle r.i)).target k = m.target k from rfl, ht, hsupjoins]
    exact hj
  · have hk : k < m.helpers := by
      by_contra hge
      rw [show T.helper k = _ from (h.unborn k (by omega)).1] at hpc
      cases hpc
    have hj := h.posting k hpc
    rw [show (m.join (m.handle r.i)).target k = m.target k from rfl, hhelper k hk, hsupjoins]
    rwa [hhelper k hk] at hj
  · have hk : k < m.helpers := by
      by_contra hge
      have hnone := (h.unborn k (by omega)).2
      rw [show m.box k = some 0 from hb] at hnone
      cases hnone
    have hj := h.boxed k hb
    rw [show (m.join (m.handle r.i)).target k = m.target k from rfl, hhelper k hk, hsupjoins]
    rwa [hhelper k hk] at hj

/-- The supervisor creates a thread for worker `i`. -/
theorem supSpawn (h : Custody c m T) {r : Round} (he : c.enableSupervisor = true)
    (hsup : T.sup = .create r) :
    Custody c (m.setW r.i (fun w ↦ { w with spawned := w.spawned + 1 }))
      { T with sup := .restarted r } := by
  have hret : T.sup ≠ .returned := by
    rw [hsup]
    nofun
  obtain ⟨hunjoined, hone, hstate⟩ := h.sup _ (by rw [hsup]; rfl)
  have hnotdone := h.not_supJoined he hret
  have hhelper : ∀ k < m.helpers, m.target k = .sup := fun k hk ↦
    (h.target k hk).resolve_right fun ⟨_, _, _, hd⟩ ↦ by rw [hnotdone] at hd; cases hd
  have hspawned := (h.post r.i).spawned
  refine
    { h with
      post := fun i ↦ ?_
      record := fun i hone' ↦ ?_
      sup := fun f hf ↦ by cases hf
      supAfter := fun hone ↦ absurd hone (h.joins_sup_ne hret)
      supHelper := h.supHelper
      supAbsent := fun hn ↦ by rw [he] at hn; cases hn
      target := fun k hk ↦ Or.inl (hhelper k hk)
      calm := fun hx ↦ ⟨(h.calm hx).1, fun i ↦ ?_⟩
      stopped := fun hl ↦ (h.stopped hl).imp_right fun ⟨hd, _⟩ ↦ by
        rw [hnotdone] at hd
        cases hd }
  · by_cases hi : i = r.i
    · subst hi
      rw [Ctl.setW_self]
      exact (h.post r.i).spawn hone hunjoined hstate
    · rw [Ctl.setW_of_ne _ _ hi]
      exact h.post i
  · by_cases hi : i = r.i
    · -- the new thread has not been joined
      subst hi
      have hzero := ((h.post r.i).future (m.w r.i).spawned (by simp only [Worker.cur]; omega)).2
      simp only [Ctl.handle, Ctl.setW_self, Nat.add_sub_cancel] at hone'
      rw [show (m.setW r.i fun w ↦ { w with spawned := w.spawned + 1 }).joins = m.joins from rfl,
        hzero] at hone'
      cases hone'
    · simp only [Ctl.handle, Ctl.setW_of_ne _ _ hi] at hone' ⊢
      rcases h.record i hone' with hj | howes | hk
      · exact Or.inl hj
      · rcases howes with howes | howes <;> rw [hsup] at howes
        · cases howes
        · exact absurd (by simpa [SupPc.fact] using howes) (Ne.symm hi)
      · exact Or.inr (Or.inr hk)
  · by_cases hi : i = r.i
    · subst hi
      rw [Ctl.setW_self]
      exact (h.calm hx).2 r.i
    · rw [Ctl.setW_of_ne _ _ hi]
      exact (h.calm hx).2 i

/-- Helper `k` joins its thread. -/
theorem helperJoin (h : Custody c m T) {k : Nat} (hk : k < m.helpers) (hpc : T.helper k = .join)
    (hended : T.ended (m.target k) = true) :
    Custody c (m.join (m.target k)) { T with helper := Function.update T.helper k (.post 0) } := by
  have hzero := h.joining k hk hpc
  have hone : (m.join (m.target k)).joins (m.target k) = 1 := by
    rw [Ctl.join_joins_self, hzero]
  have hother : ∀ b, b ≠ m.target k → (m.join (m.target k)).joins b = m.joins b :=
    fun b hb ↦ m.join_joins_of_ne hb
  have hmono : ∀ b, m.joins b = 1 → (m.join (m.target k)).joins b = 1 := fun b hb ↦ by
    rw [hother b (by rintro rfl; omega)]
    exact hb
  -- a worker's thread is joined by a helper only after the supervisor has gone
  have hgone : ∀ i, m.target k = m.handle i → T.sup.fact = none := by
    intro i hi
    rcases h.target k hk with ht | ⟨_, _, _, hd⟩
    · rw [ht] at hi
      cases hi
    · exact h.no_fact_of_supDone (h.supDone hd)
  refine
    { h with
      post := fun i ↦ ?_
      record := fun i hi ↦ ?_
      sup := fun f hf ↦ ?_
      supOnce := ?_
      supAfter := fun hs ↦ ?_
      supHelper := fun hs ↦ ?_
      supJoined := fun hj he ↦ hmono _ (h.supJoined hj he)
      unborn := fun b hb ↦ ?_
      joining := fun b hb hp ↦ ?_
      posting := fun b hp ↦ ?_
      boxed := fun b hb ↦ hmono _ (h.boxed b hb) }
  · by_cases hi : m.target k = m.handle i
    · have hstage : T.stage i (m.w i).cur = .ended := by
        rw [hi] at hended
        exact of_decide_eq_true hended
      refine (h.post i).join hstage (hi ▸ hone) fun j hj ↦ hother _ ?_
      rw [hi, Ctl.handle, Ne, Agent.worker.injEq]
      exact fun he ↦ hj he.2
    · have hsame : (fun j ↦ (m.join (m.target k)).joins (.worker i j)) =
          fun j ↦ m.joins (.worker i j) := by
        funext j
        refine hother _ fun he ↦ ?_
        rcases h.target k hk with ht | ⟨i', -, ht, -⟩
        · rw [ht] at he
          cases he
        · rw [ht, Ctl.handle, Agent.worker.injEq] at he
          exact hi (ht.trans (by rw [he.1]))
      rw [hsame]
      exact h.post i
  · by_cases ht : m.target k = m.handle i
    · exact Or.inr (Or.inr ⟨k, hk, ht⟩)
    · exact h.record i ((hother _ (Ne.symm ht)).symm.trans hi)
  · have hold := h.sup f hf
    have hne : ∀ i, m.handle i ≠ m.target k := fun i hi ↦ by
      rw [hgone i hi.symm] at hf
      cases hf
    cases f with
    | unjoined i | collected i => exact ⟨hold.1, (hother _ (hne i)).trans hold.2⟩
    | launching i => exact ⟨hold.1, (hother _ (hne i)).trans hold.2.1, hold.2.2⟩
    | joined i | up i => exact hold
  · by_cases ht : m.target k = .sup
    · rw [ht] at hone ⊢
      exact hone.le
    · exact (hother _ (Ne.symm ht)).trans_le h.supOnce
  · by_cases ht : m.target k = .sup
    · rw [ht] at hended
      exact of_decide_eq_true hended
    · exact h.supAfter ((hother _ (Ne.symm ht)).symm.trans hs)
  · by_cases ht : m.target k = .sup
    · exact ⟨k, hk, ht⟩
    · exact h.supHelper ((hother _ (Ne.symm ht)).symm.trans hs)
  · have hne : b ≠ k := by
      rintro rfl
      exact absurd hk (Nat.not_lt.mpr hb)
    exact ⟨(Function.update_of_ne hne _ _).trans (h.unborn b hb).1, (h.unborn b hb).2⟩
  · have hne : b ≠ k := by
      rintro rfl
      simp only [Function.update_self, reduceCtorEq] at hp
    have hp' : T.helper b = .join := (Function.update_of_ne hne _ _).symm.trans hp
    exact (hother _ fun ht ↦ hne (h.apart b hb k hk ht)).trans (h.joining b hb hp')
  · by_cases hne : b = k
    · rw [hne]
      exact hone
    · exact hmono _ (h.posting b ((Function.update_of_ne hne _ _).symm.trans hp))

/-- Helper `k` moves on with a result that is backed by a join if it is 0. -/
theorem helperMove (h : Custody c m T) {k : Nat} {p : HelperPc} {box : Option Int}
    (hk : k < m.helpers) (hp : p ≠ .join) (hpost : p = .post 0 → T.helper k = .post 0)
    (hbox : box = m.box k ∨ ∃ rc, T.helper k = .post rc ∧ box = some rc) :
    Custody c { m with box := Function.update m.box k box }
      { T with helper := Function.update T.helper k p } := by
  refine
    { h with
      unborn := fun b hb ↦ ?_
      joining := fun b hb hpc ↦ ?_
      posting := fun b hpc ↦ ?_
      boxed := fun b hb ↦ ?_ }
  · have hne : b ≠ k := by
      rintro rfl
      exact absurd hk (Nat.not_lt.mpr hb)
    exact ⟨(Function.update_of_ne hne _ _).trans (h.unborn b hb).1,
      (Function.update_of_ne hne _ _).trans (h.unborn b hb).2⟩
  · by_cases hne : b = k
    · subst hne
      exact absurd ((Function.update_self b p T.helper).symm.trans hpc) hp
    · exact h.joining b hb ((Function.update_of_ne hne _ _).symm.trans hpc)
  · by_cases hne : b = k
    · subst hne
      exact h.posting b (hpost ((Function.update_self b p T.helper).symm.trans hpc))
    · exact h.posting b ((Function.update_of_ne hne _ _).symm.trans hpc)
  · by_cases hne : b = k
    · subst hne
      have hb' : box = some 0 := (Function.update_self b box m.box).symm.trans hb
      rcases hbox with he | ⟨rc, hpc, he⟩
      · exact h.boxed b (he.symm.trans hb')
      · rw [he, Option.some.injEq] at hb'
        exact h.posting b (hb' ▸ hpc)
    · exact h.boxed b ((Function.update_of_ne hne _ _).symm.trans hb)

/-! ### The writes of the executing shutdown call -/

theorem setExecutor (h : Custody c m T) {me : Agent} :
    Custody c { m with lifecycle := .quiescing, executor := some me } T :=
  { h with
    calm := fun hn ↦ by cases hn
    running := fun hl ↦ by rcases hl with hl | hl <;> cases hl
    stopped := fun hl ↦ by cases hl }

theorem setLifecycle (h : Custody c m T) {l : Life} (hl : l = .draining ∨ l = .stopped)
    (hfinal : l = .stopped → m.quarantined = true ∨
      (m.supervisorJoined = true ∧ ∀ i < c.nWorkers, (m.w i).joined = true)) :
    Custody c { m with lifecycle := l } T :=
  { h with
    running := fun hr ↦ by rcases hl with rfl | rfl <;> rcases hr with hr | hr <;> cases hr
    stopped := hfinal }

theorem setSupJoined (h : Custody c m T) (hone : m.joins .sup = 1) :
    Custody c { m with supervisorJoined := true } T :=
  { h with
    supJoined := fun _ _ ↦ hone
    supAbsent := fun he ↦ ⟨rfl, (h.supAbsent he).2⟩
    target := fun k hk ↦ (h.target k hk).imp_right fun ⟨i, hi, ht, _⟩ ↦ ⟨i, hi, ht, rfl⟩
    stopped := fun hl ↦ (h.stopped hl).imp_right fun ⟨_, hall⟩ ↦ ⟨rfl, hall⟩ }

/-- A helper is created for a thread that has not been joined and that no other helper is for. -/
theorem addHelper (h : Custody c m T) {a : Agent} (hexec : m.executor ≠ none)
    (hzero : m.joins a = 0) (hnew : ∀ k < m.helpers, m.target k ≠ a)
    (ha : a = .sup ∨ ∃ i, i < c.nWorkers ∧ a = m.handle i ∧ m.supervisorJoined = true) :
    Custody c
      { m with helpers := m.helpers + 1, target := Function.update m.target m.helpers a } T := by
  have hself : Function.update m.target m.helpers a m.helpers = a := Function.update_self _ _ _
  have hold : ∀ k < m.helpers, Function.update m.target m.helpers a k = m.target k :=
    fun k hk ↦ Function.update_of_ne hk.ne _ _
  have hborn : ∀ k, T.helper k ≠ .join ∨ m.box k ≠ none → k < m.helpers := by
    intro k hk
    by_contra hge
    obtain ⟨hj, hb⟩ := h.unborn k (by omega)
    rcases hk with hk | hk
    · exact hk hj
    · exact hk hb
  refine
    { h with
      record := fun i hone ↦ ?_
      supHelper := fun hone ↦ ?_
      unborn := fun k hk ↦ h.unborn k (Nat.le_of_succ_le hk)
      joining := fun k hk hpc ↦ ?_
      posting := fun k hpc ↦ ?_
      boxed := fun k hb ↦ ?_
      apart := fun k hk k' hk' ht ↦ ?_
      target := fun k hk ↦ ?_
      calm := fun hn ↦ absurd hn hexec }
  · refine (h.record i hone).imp_right (Or.imp_right ?_)
    rintro ⟨k, hk, ht⟩
    exact ⟨k, Nat.lt_succ_of_lt hk, (hold k hk).trans ht⟩
  · obtain ⟨k, hk, ht⟩ := h.supHelper hone
    exact ⟨k, Nat.lt_succ_of_lt hk, (hold k hk).trans ht⟩
  · rcases Nat.lt_succ_iff_lt_or_eq.mp hk with hlt | rfl
    · simp only [hold k hlt]
      exact h.joining k hlt hpc
    · simp only [hself]
      exact hzero
  · have hk := hborn k (Or.inl (by simp [hpc]))
    simp only [hold k hk]
    exact h.posting k hpc
  · have hk := hborn k (Or.inr (by rw [show m.box k = some 0 from hb]; nofun))
    simp only [hold k hk]
    exact h.boxed k hb
  · simp only at ht
    rcases Nat.lt_succ_iff_lt_or_eq.mp hk with hlt | rfl <;>
      rcases Nat.lt_succ_iff_lt_or_eq.mp hk' with hlt' | rfl
    · rw [hold k hlt, hold k' hlt'] at ht
      exact h.apart k hlt k' hlt' ht
    · rw [hold k hlt, hself] at ht
      exact absurd ht (hnew k hlt)
    · rw [hself, hold k' hlt'] at ht
      exact absurd ht.symm (hnew k' hlt')
    · rfl
  · rcases Nat.lt_succ_iff_lt_or_eq.mp hk with hlt | rfl
    · simp only [hold k hlt]
      exact h.target k hlt
    · simp only [hself]
      exact ha

end Custody

end Awp
