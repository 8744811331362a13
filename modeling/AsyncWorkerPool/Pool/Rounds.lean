import AsyncWorkerPool.Pool.Verdict

/-!
# Rounds — aborts without end

A claim that is never committed leaves a frame in the ring that its worker cannot pop.  The
supervisor takes the worker for stalled, quarantines it and closes the ring; the worker then comes to
its exit, overwrites the quarantine, and is restarted, only to be taken for stalled again.  Each
round records an abort, so that the count outgrows the `int` that shutdown converts it to.
-/

open Foundation

namespace Awp

/-! ## A party alone -/

/-- What a party that moves alone reads and writes. -/
structure Solo where
  ctl : Ctl
  dat : Dat
  pc : Pc
  ring : Ring Nat Agent Nat
  loc : Loc Nat Nat

/-- The pool with party `a` at ring `i` as given. -/
def Pool.at (s : Pool) (a : Agent) (i : Nat) (q : Solo) : Pool :=
  { ctl := q.ctl
    dat := q.dat
    ring := Function.update s.ring i q.ring
    thr := Function.update s.thr a ⟨q.pc, i, q.loc⟩ }

/-- The next access outside the ring functions, but for a join and a call of `awp_pool_destroy`. -/
def Solo.own (c : Config) (me : Agent) (q : Solo) : Option (Ctl × Dat × Pc × Cmd) :=
  match q.pc, me with
  | .api p, .api _ => (p.next c q.ctl q.dat q.loc .go).map fun (d, p, k) ↦ (q.ctl, d, .api p, k)
  | .shut p, .api n =>
    (p.next c q.ctl q.dat.activeSubmits (.api n) q.loc .go).map fun (m, p, k) ↦ (m, q.dat, .shut p, k)
  | .worker p, .worker j _ =>
    (p.next c q.ctl j q.loc .go).map fun (m, p, k) ↦ (m, q.dat, .worker p, k)
  | .sup p, .sup =>
    (p.next c q.ctl (fun _ ↦ false) q.loc .go).map fun (m, p, k) ↦ (m, q.dat, .sup p, k)
  | _, _ => none

/-- The next access of party `me`, which stays with ring `i`. -/
def Solo.next (c : Config) (me : Agent) (i : Nat) (q : Solo) : Option Solo :=
  if q.loc.active then
    (q.ring.step c.capacity.val me false q.loc).map fun (r, l) ↦
      { q with dat := q.dat.notePublish c i q.loc, ring := r, loc := l }
  else
    (q.own c me).bind fun (m, d, pc, k) ↦
      (k.apply i q.loc).bind fun (sh, l) ↦
        if sh = i then some { q with ctl := m, dat := d, pc := pc, loc := l } else none

def Solo.run (c : Config) (me : Agent) (i : Nat) : Nat → Solo → Option Solo
  | 0, q => some q
  | k + 1, q => (q.next c me i).bind (Solo.run c me i k)

theorem Solo.run_add {c : Config} {me : Agent} {i k : Nat} (j : Nat) {q q' : Solo}
    (h : q.run c me i j = some q') : q.run c me i (j + k) = q'.run c me i k := by
  induction j generalizing q with
  | zero =>
    cases h
    rw [Nat.zero_add]
  | succ j ih =>
    rw [Nat.add_right_comm]
    simp only [Solo.run, Option.bind_eq_some_iff] at h ⊢
    obtain ⟨q₁, hnext, h⟩ := h
    rw [hnext, Option.bind_some, ih h]

section Solo

variable {c : Config} {s : Pool} {a : Agent} {i : Nat} {q q' : Solo} {ok : Pool → Label → Prop}

@[simp] theorem Pool.at_thr_self : (s.at a i q).thr a = ⟨q.pc, i, q.loc⟩ := Function.update_self _ _ _

theorem Pool.at_thr_of_ne {b : Agent} (h : b ≠ a) : (s.at a i q).thr b = s.thr b :=
  Function.update_of_ne h _ _

@[simp] theorem Pool.at_ring_self : (s.at a i q).ring i = q.ring := Function.update_self _ _ _

theorem Pool.at_self (h : (s.thr a).sh = i) :
    s.at a i ⟨s.ctl, s.dat, (s.thr a).pc, s.ring i, (s.thr a).loc⟩ = s := by
  subst h
  simp only [Pool.at, Function.update_eq_self]

/-- A call begins. -/
theorem Pool.at_begin {n : Nat} {pc : Pc} (h : s.thr (.api n) = ⟨.api .idle, i, .idle⟩) :
    s.begin n pc = some (s.at (.api n) i ⟨s.ctl, s.dat, pc, s.ring i, .idle⟩) := by
  simp only [Pool.begin, h, Pool.at, Function.update_eq_self]

/-- Whoever joins nobody does not look at who has returned. -/
theorem SupPc.next_ended {m m' : Ctl} {ended : Agent → Bool} {l : Loc Nat Nat} {p p' : SupPc} {k : Cmd}
    (h : p.next c m (fun _ ↦ false) l .go = some (m', p', k)) :
    p.next c m ended l .go = some (m', p', k) := by
  cases p with
  | join r => cases h
  | _ => exact h

theorem Pool.at_own {m : Ctl} {d : Dat} {pc : Pc} {k : Cmd} (h : q.own c a = some (m, d, pc, k)) :
    (s.at a i q).next c a .go = some (m, d, pc, k) := by
  obtain ⟨ctl, dat, pc₀, r, l⟩ := q
  simp only [Pool.next, Pool.at, Function.update_self]
  cases pc₀ with
  | api p | shut p =>
    cases a with
    | api n =>
      simp only [Solo.own, Option.map_eq_some_iff] at h ⊢
      exact h
    | _ => cases h
  | worker p =>
    cases a with
    | worker j n =>
      simp only [Solo.own, Option.map_eq_some_iff] at h ⊢
      exact h
    | _ => cases h
  | sup p =>
    cases a with
    | sup =>
      simp only [Solo.own, Option.map_eq_some_iff] at h ⊢
      obtain ⟨⟨m', p', k'⟩, hn, he⟩ := h
      cases he
      exact ⟨_, SupPc.next_ended hn, rfl⟩
    | _ => cases h
  | _ => cases a <;> cases h

/-- An access in the ring, or one outside it. -/
theorem Solo.next_cases (h : q.next c a i = some q') :
    (q.loc.active = true ∧ ∃ r l, q.ring.step c.capacity.val a false q.loc = some (r, l) ∧
      q' = { q with dat := q.dat.notePublish c i q.loc, ring := r, loc := l }) ∨
    (q.loc.active = false ∧ ∃ m d pc k l, q.own c a = some (m, d, pc, k) ∧
      k.apply i q.loc = some (i, l) ∧ q' = { q with ctl := m, dat := d, pc := pc, loc := l }) := by
  unfold Solo.next at h
  split at h
  · rename_i hact
    obtain ⟨⟨r, l⟩, hstep, rfl⟩ := Option.map_eq_some_iff.mp h
    exact Or.inl ⟨hact, r, l, hstep, rfl⟩
  · rename_i hact
    obtain ⟨⟨m, d, pc, k⟩, hown, h⟩ := Option.bind_eq_some_iff.mp h
    obtain ⟨⟨sh, l⟩, hk, h⟩ := Option.bind_eq_some_iff.mp h
    simp only [Option.ite_none_right_eq_some, Option.some.injEq] at h
    obtain ⟨rfl, rfl⟩ := h
    exact Or.inr ⟨by simpa using hact, m, d, pc, k, l, hown, hk, rfl⟩

/-- A party that moves alone makes a step of the pool. -/
theorem Pool.at_step (hex : (s.at a i q).exists c a = true) (h : q.next c a i = some q') :
    (s.at a i q).step c (.step a .go) = some (s.at a i q') := by
  rw [Pool.step, if_pos hex, Pool.at_thr_self]
  rcases Solo.next_cases h with ⟨hact, r, l, hstep, rfl⟩ | ⟨hact, m, d, pc, k, l, hown, hk, rfl⟩
  · rw [if_pos hact, Pool.access, Pool.at_thr_self]
    simp only [Pool.at_ring_self, Choice.spurious, Option.bind_some, hstep, Option.map_some,
      Option.some.injEq]
    simp only [Pool.at, Function.update_idem]
  · rw [if_neg (by simpa using hact), Pool.advance, Pool.at_own hown, Pool.at_thr_self]
    simp only [Option.bind_some, hk, Option.map_some, Option.some.injEq]
    simp only [Pool.at, Function.update_idem]

/-- A party that moves alone goes on existing. -/
theorem Pool.at_exists (hex : (s.at a i q).exists c a = true) (h : q.next c a i = some q') :
    (s.at a i q').exists c a = true := by
  rcases Solo.next_cases h with ⟨-, r, l, -, rfl⟩ | ⟨-, m, d, pc, k, l, hown, -, rfl⟩
  · exact hex
  · cases a with
    | api n => rfl
    | sup => exact hex
    | helper n => cases hpc : q.pc <;> simp [Solo.own, hpc] at hown
    | worker j n =>
      have hspawned : (m.w j).spawned = (q.ctl.w j).spawned := by
        cases hpc : q.pc with
        | worker p =>
          simp only [Solo.own, hpc, Option.map_eq_some_iff] at hown
          obtain ⟨⟨m', p', k'⟩, hn, he⟩ := hown
          cases he
          have hframe := congrArg Worker.spawned (WorkerPc.next_frame hn).2
          exact hframe
        | _ => simp [Solo.own, hpc] at hown
      obtain ⟨hj, hn⟩ := of_decide_eq_true hex
      exact decide_eq_true ⟨hj, hn.trans_eq hspawned.symm⟩

theorem Pool.at_run (hok : ∀ t x, ok t (.step a x)) {k : Nat} :
    ∀ {q : Solo}, (s.at a i q).exists c a = true → q.run c a i k = some q' →
      Steps (Pool.step c) ok (s.at a i q) (s.at a i q') := by
  induction k with
  | zero =>
    intro q _ h
    cases h
    exact Steps.refl _
  | succ k ih =>
    intro q hex h
    obtain ⟨q₁, hnext, h⟩ := Option.bind_eq_some_iff.mp h
    have hone := (Steps.refl _).tail (hok _ .go) (Pool.at_step hex hnext)
    exact hone.trans (ih (Pool.at_exists hex hnext) h)

/-- A call begins, and its party moves alone. -/
theorem Pool.begin_run {n k : Nat} {e : Label} {pc : Pc} {m : Ctl} {d : Dat} {r : Ring Nat Agent Nat}
    (hidle : s.thr (.api n) = ⟨.api .idle, i, .idle⟩) (hctl : s.ctl = m) (hdat : s.dat = d)
    (hring : s.ring i = r) (hbegin : s.step c e = s.begin n pc) (he : ok s e)
    (hok : ∀ t x, ok t (.step (.api n) x))
    (h : Solo.run c (.api n) i k ⟨m, d, pc, r, .idle⟩ = some q') :
    Steps (Pool.step c) ok s (s.at (.api n) i q') := by
  subst hctl hdat hring
  rw [Pool.at_begin hidle] at hbegin
  exact ((Steps.refl s).tail he hbegin).trans (Pool.at_run hok rfl h)

/-- The clock moves meanwhile. -/
theorem Pool.at_tick (d : Nat) (hok : ok (s.at a i q) (.tick d)) : Steps (Pool.step c) ok (s.at a i q)
    (s.at a i { q with ctl := { q.ctl with clock := q.ctl.clock + d } }) :=
  (Steps.refl _).tail hok rfl

end Solo

/-! ## A round -/

/-- What the control words say in a round of `Config.watched`. -/
structure Scene where
  aborts : Nat
  now : Nat
  state : WState
  stop : Bool
  joined : Bool
  last : Nat
  closed : Bool

/-- The control words where `k + 1` threads have been created for worker 0. -/
structure Ctl.Shows (f : Scene) (k : Nat) (m : Ctl) : Prop where
  lifecycle : m.lifecycle = .running
  lifeMu : m.lifeMu = none
  supervisorStop : m.supervisorStop = false
  supervisorPhase : m.supervisorPhase = 2
  supervisorJoined : m.supervisorJoined = false
  aborts : m.shutdownAborts = f.aborts
  now : m.clock = f.now
  state : (m.w 0).state = f.state
  stop : (m.w 0).stop = f.stop
  joined : (m.w 0).joined = f.joined
  last : (m.w 0).lastProgress = f.last
  spawned : (m.w 0).spawned = k + 1

/-- Such control words, as far as they show it. -/
def Ctl.scene (m : Ctl) (f : Scene) (k : Nat) : Ctl :=
  { m with
    lifecycle := .running, lifeMu := none, supervisorStop := false, supervisorPhase := 2
    supervisorJoined := false, shutdownAborts := f.aborts, clock := f.now
    w := Function.update m.w 0
      { m.w 0 with
        state := f.state, stop := f.stop, joined := f.joined, lastProgress := f.last
        spawned := k + 1 } }

/-- The ring with a frame that is claimed and never committed. -/
def claimedRing (closed : Bool) (cv : Nat) : Ring Nat Agent Nat :=
  { Ring.init id with enqueuePos := 1, closed := closed, waitCv := cv }

theorem Ctl.Shows.eq {m : Ctl} {f : Scene} {k : Nat} (h : m.Shows f k) : m.scene f k = m := by
  have hw : Function.update m.w 0
      { m.w 0 with
        state := f.state, stop := f.stop, joined := f.joined, lastProgress := f.last
        spawned := k + 1 } = m.w := by
    rw [← h.state, ← h.stop, ← h.joined, ← h.last, ← h.spawned]
    exact Function.update_eq_self 0 m.w
  obtain ⟨hlife, hmu, hstop, hphase, hjoined, haborts, hnow, -⟩ := h
  cases m
  simp only [Ctl.scene, Ctl.mk.injEq] at *
  simp only [hlife, hmu, hstop, hphase, hjoined, haborts, hnow, hw, and_self]

theorem Ctl.scene_shows (m : Ctl) (f : Scene) (k : Nat) : (m.scene f k).Shows f k :=
  ⟨rfl, rfl, rfl, rfl, rfl, rfl, rfl, rfl, rfl, rfl, rfl, rfl⟩

/-- The pool in a round: the supervisor at `p`, the last thread of worker 0 at `q`, and a claim under
way. -/
structure Pool.Round (f : Scene) (k : Nat) (p : SupPc) (q : WorkerPc) (s : Pool) : Prop where
  ctl : s.ctl.Shows f k
  active : s.dat.activeSubmits = 1
  ring : ∃ cv, s.ring 0 = claimedRing f.closed cv
  sup : s.thr .sup = ⟨.sup p, 0, .idle⟩
  worker : s.thr (.worker 0 k) = ⟨.worker q, 0, .idle⟩
  unborn : ∀ j, k < j → s.thr (.worker 0 j) = ⟨.worker .entry, 0, .idle⟩
  idle : ∀ n, 0 < n → s.thr (.api n) = ⟨.api .idle, 0, .idle⟩

/-- The supervisor's way from one place to another, alone. -/
def SupPc.Goes (f : Scene) (p : SupPc) (f' : Scene) (p' : SupPc) : Prop :=
  ∀ m d k cv, m.Shows f k → ∃ n m' cv', m'.Shows f' k ∧
    Solo.run .watched .sup 0 n ⟨m, d, .sup p, claimedRing f.closed cv, .idle⟩ =
      some ⟨m', d, .sup p', claimedRing f'.closed cv', .idle⟩

def WorkerPc.Goes (f : Scene) (q : WorkerPc) (f' : Scene) (q' : WorkerPc) : Prop :=
  ∀ m d k cv, m.Shows f k → ∃ n m' cv', m'.Shows f' k ∧
    Solo.run .watched (.worker 0 k) 0 n ⟨m, d, .worker q, claimedRing f.closed cv, .idle⟩ =
      some ⟨m', d, .worker q', claimedRing f'.closed cv', .idle⟩

section Round

variable {s : Pool} {f f' : Scene} {k : Nat} {p p' : SupPc} {q q' : WorkerPc}

/-- A run in which nobody calls `awp_pool_shutdown` from inside a callback. -/
def Reaches (s s' : Pool) : Prop := Steps (Pool.step .watched) (Outside fun _ ↦ True) s s'

theorem Pool.Round.sup_goes (h : s.Round f k p q) (hp : p.Goes f f' p') :
    ∃ s', Reaches s s' ∧ s'.Round f' k p' q := by
  obtain ⟨cv, hring⟩ := h.ring
  obtain ⟨n, m', cv', hm', hrun⟩ := hp s.ctl s.dat k cv h.ctl
  have hself : s.at .sup 0 ⟨s.ctl, s.dat, .sup p, claimedRing f.closed cv, .idle⟩ = s := by
    have hs := Pool.at_self (s := s) (a := .sup) (i := 0) (by rw [h.sup])
    rwa [h.sup, hring] at hs
  have hsteps : Reaches _ _ := Pool.at_run (s := s) (fun _ _ ↦ trivial) rfl hrun
  rw [hself] at hsteps
  exact ⟨_, hsteps, hm', h.active, ⟨cv', Pool.at_ring_self⟩, Pool.at_thr_self,
    (Pool.at_thr_of_ne (by simp)).trans h.worker,
    fun j hj ↦ (Pool.at_thr_of_ne (by simp)).trans (h.unborn j hj),
    fun n hn ↦ (Pool.at_thr_of_ne (by simp)).trans (h.idle n hn)⟩

theorem Pool.Round.worker_goes (h : s.Round f k p q) (hq : q.Goes f f' q') :
    ∃ s', Reaches s s' ∧ s'.Round f' k p q' := by
  obtain ⟨cv, hring⟩ := h.ring
  obtain ⟨n, m', cv', hm', hrun⟩ := hq s.ctl s.dat k cv h.ctl
  have hself : s.at (.worker 0 k) 0 ⟨s.ctl, s.dat, .worker q, claimedRing f.closed cv, .idle⟩ = s := by
    have hs := Pool.at_self (s := s) (a := .worker 0 k) (i := 0) (by rw [h.worker])
    rwa [h.worker, hring] at hs
  have hex : s.exists .watched (.worker 0 k) = true :=
    decide_eq_true ⟨Nat.one_pos, by rw [h.ctl.spawned]; exact Nat.lt_succ_self k⟩
  have hsteps : Reaches _ _ := Pool.at_run (s := s) (fun _ _ ↦ trivial) (hself ▸ hex) hrun
  rw [hself] at hsteps
  exact ⟨_, hsteps, hm', h.active, ⟨cv', Pool.at_ring_self⟩,
    (Pool.at_thr_of_ne (by simp)).trans h.sup, Pool.at_thr_self,
    fun j hj ↦ (Pool.at_thr_of_ne (by simpa using hj.ne')).trans (h.unborn j hj),
    fun n hn ↦ (Pool.at_thr_of_ne (by simp)).trans (h.idle n hn)⟩

/-- The clock moves. -/
theorem Pool.Round.tick (h : s.Round f k p q) (d : Nat) :
    ∃ s', Reaches s s' ∧ s'.Round { f with now := f.now + d } k p q := by
  refine ⟨{ s with ctl := { s.ctl with clock := s.ctl.clock + d } },
    (Steps.refl s).tail (a := .tick d) trivial rfl, ?_⟩
  exact { h with ctl := { h.ctl with now := congrArg (· + d) h.ctl.now } }

/-- The supervisor joins the worker's thread. -/
theorem Pool.Round.join {r : Nat} (h : s.Round f k (.join ⟨r, 0⟩) .returned) :
    ∃ s', Reaches s s' ∧ s'.Round f k (.setJoined ⟨r, 0⟩) .returned := by
  have hhandle : s.ctl.handle 0 = .worker 0 k := by
    rw [Ctl.handle, h.ctl.spawned]
    rfl
  have hended : s.ended (s.ctl.handle 0) = true := by
    rw [hhandle, Pool.ended, h.worker]
    rfl
  have hst : s.step .watched (.step .sup .go) =
      some (s.moved (s.ctl.join (s.ctl.handle 0)) s.dat .sup (.sup (.setJoined ⟨r, 0⟩)) 0 .idle) := by
    simp [Pool.step, Pool.exists, Config.watched, h.sup, Loc.active, Pool.advance, Pool.next, SupPc.next,
      hended, Cmd.apply, Pool.moved]
  exact ⟨_, (Steps.refl s).tail (a := .step .sup .go) trivial hst, { h.ctl with }, h.active, h.ring,
    Pool.moved_self, (Pool.moved_of_ne (by simp)).trans h.worker,
    fun j hj ↦ (Pool.moved_of_ne (by simp)).trans (h.unborn j hj),
    fun n hn ↦ (Pool.moved_of_ne (by simp)).trans (h.idle n hn)⟩

/-- The supervisor creates the next thread. -/
theorem Pool.Round.create {r : Nat} (h : s.Round f k (.create ⟨r, 0⟩) q) :
    ∃ s', Reaches s s' ∧ s'.Round f (k + 1) (.restarted ⟨r, 0⟩) .entry := by
  have hst : s.step .watched (.step .sup .go) =
      some (s.moved (s.ctl.setW 0 fun w ↦ { w with spawned := w.spawned + 1 }) s.dat .sup
        (.sup (.restarted ⟨r, 0⟩)) 0 .idle) := by
    simp [Pool.step, Pool.exists, Config.watched, h.sup, Loc.active, Pool.advance, Pool.next, SupPc.next,
      Cmd.apply, Pool.moved]
  have hctl : (s.ctl.setW 0 fun w ↦ { w with spawned := w.spawned + 1 }).Shows f (k + 1) := by
    obtain ⟨hlife, hmu, hstop, hphase, hjoined, haborts, hnow, hstate, hws, hwj, hlast, hspawned⟩ := h.ctl
    refine ⟨hlife, hmu, hstop, hphase, hjoined, haborts, hnow, ?_, ?_, ?_, ?_, ?_⟩ <;>
      rw [Ctl.setW_self]
    · exact hstate
    · exact hws
    · exact hwj
    · exact hlast
    · exact congrArg (· + 1) hspawned
  exact ⟨_, (Steps.refl s).tail (a := .step .sup .go) trivial hst, hctl, h.active, h.ring,
    Pool.moved_self, (Pool.moved_of_ne (by simp)).trans (h.unborn _ (Nat.lt_succ_self k)),
    fun j hj ↦ (Pool.moved_of_ne (by simp)).trans (h.unborn j (by omega)),
    fun n hn ↦ (Pool.moved_of_ne (by simp)).trans (h.idle n hn)⟩

end Round

section Stretch

variable (a t u last : Nat)

/-- The new thread runs. -/
theorem WorkerPc.goes_running : WorkerPc.Goes ⟨a, t, .starting, false, false, last, false⟩ .entry
    ⟨a, t, .running, false, false, t, false⟩ .loop := by
  intro m d k cv hm
  rw [← hm.eq]
  exact ⟨2, _, _, ⟨rfl, rfl, rfl, rfl, rfl, rfl, rfl, rfl, rfl, rfl, rfl, rfl⟩, rfl⟩

theorem SupPc.goes_inspect : SupPc.Goes ⟨a, t, .running, false, false, last, false⟩ (.ask .outer)
    ⟨a, t, .running, false, false, last, false⟩ (.progress ⟨t, 0⟩ .running) := by
  intro m d k cv hm
  rw [← hm.eq]
  exact ⟨6, _, _, Ctl.scene_shows _ _ _, rfl⟩

/-- There has been no progress for two milliseconds. -/
theorem SupPc.goes_stalled : SupPc.Goes ⟨a, last + 2000000, .running, false, false, last, false⟩
    (.progress ⟨last + 2000000, 0⟩ .running)
    ⟨a, last + 2000000, .running, false, false, last, false⟩
    (.stallDepth ⟨last + 2000000, 0⟩ last) := by
  intro m d k cv hm
  have hlate : Config.watched.stallMs < (last + 2000000 - last) / 1000000 := by
    rw [Nat.add_sub_cancel_left]
    decide
  refine ⟨1, m, cv, hm, ?_⟩
  have hbranch : Round.inspect .watched ⟨last + 2000000, 0⟩ .running last =
      .stallDepth ⟨last + 2000000, 0⟩ last := by
    simp only [Round.inspect]
    rw [if_neg (by decide), if_neg (by decide), if_neg (by decide), if_pos ⟨rfl, hlate⟩]
  simp [Solo.run, Solo.next, Solo.own, Loc.active, SupPc.next, hm.last, hbranch, Cmd.apply]

/-- It finds a frame, asks the worker to stop, and sees it running still. -/
theorem SupPc.goes_stop : SupPc.Goes ⟨a, t, .running, false, false, last, false⟩
    (.stallDepth ⟨t, 0⟩ last) ⟨a, t, .running, true, false, last, false⟩
    (.graceClock ⟨t, 0⟩ last (t + 1000000)) := by
  intro m d k cv hm
  rw [← hm.eq]
  exact ⟨7, _, _, ⟨rfl, rfl, rfl, rfl, rfl, rfl, rfl, rfl, rfl, rfl, rfl, rfl⟩, rfl⟩

theorem SupPc.goes_graceDone : SupPc.Goes ⟨a, u, .running, true, false, last, false⟩
    (.graceClock ⟨t, 0⟩ last u) ⟨a, u, .running, true, false, last, false⟩
    (.ask (.graceDone ⟨t, 0⟩ last)) := by
  intro m d k cv hm
  refine ⟨1, m, cv, hm, ?_⟩
  simp [Solo.run, Solo.next, Solo.own, Loc.active, SupPc.next, hm.now, Cmd.apply]

theorem SupPc.goes_after : SupPc.Goes ⟨a, u, .running, true, false, last, false⟩
    (.ask (.graceDone ⟨t, 0⟩ last)) ⟨a, u, .running, true, false, last, false⟩
    (.afterProgress ⟨t, 0⟩ last) := by
  intro m d k cv hm
  rw [← hm.eq]
  exact ⟨5, _, _, Ctl.scene_shows _ _ _, rfl⟩

theorem SupPc.goes_noProgress : SupPc.Goes ⟨a, u, .running, true, false, last, false⟩
    (.afterProgress ⟨t, 0⟩ last) ⟨a, u, .running, true, false, last, false⟩ (.quarState ⟨t, 0⟩) := by
  intro m d k cv hm
  refine ⟨1, m, cv, hm, ?_⟩
  simp [Solo.run, Solo.next, Solo.own, Loc.active, SupPc.next, hm.last, Cmd.apply]

/-- The quarantine, with its abort. -/
theorem SupPc.goes_quarantine : SupPc.Goes ⟨a, u, .running, true, false, last, false⟩
    (.quarState ⟨t, 0⟩) ⟨(a + 1) % 2 ^ 64, u, .quarantined, true, false, last, true⟩
    (.sliceClock ⟨t, 1⟩) := by
  intro m d k cv hm
  rw [← hm.eq]
  exact ⟨12, _, _, ⟨rfl, rfl, rfl, rfl, rfl, rfl, rfl, rfl, rfl, rfl, rfl, rfl⟩, rfl⟩

/-- The interval is over. -/
theorem SupPc.goes_slice (f : Scene) (h : f.now = t + 1000000) (r : Round) (hr : r.now = t) :
    SupPc.Goes f (.sliceClock r) f (.ask .outer) := by
  intro m d k cv hm
  have hclock : ¬ m.clock < r.now + Config.watched.intervalNs := by
    rw [hm.now, h, hr]
    exact Nat.lt_irrefl _
  refine ⟨1, m, cv, hm, ?_⟩
  simp [Solo.run, Solo.next, Solo.own, Loc.active, SupPc.next, hclock, Cmd.apply]

/-- The worker finds nothing to pop in its closed ring, and overwrites the quarantine. -/
theorem WorkerPc.goes_exit : WorkerPc.Goes ⟨a, t, .quarantined, true, false, last, true⟩ .loop
    ⟨a, t, .exited, true, false, last, true⟩ .returned := by
  intro m d k cv hm
  rw [← hm.eq]
  have hpop : Solo.run .watched (.worker 0 k) 0 7
      ⟨m.scene ⟨a, t, .quarantined, true, false, last, true⟩ k, d, .worker .loop, claimedRing true cv,
        .idle⟩ =
      some ⟨m.scene ⟨a, t, .quarantined, true, false, last, true⟩ k, d, .worker .pop, claimedRing true cv,
        .popSeq true 0 0⟩ := rfl
  refine ⟨7 + 5, (m.scene ⟨a, t, .quarantined, true, false, last, true⟩ k).setW 0
    ({ · with state := .exited }), cv, ⟨rfl, rfl, rfl, rfl, rfl, rfl, rfl, rfl, rfl, rfl, rfl, rfl⟩, ?_⟩
  rw [Solo.run_add 7 hpop]
  rfl

theorem SupPc.goes_restart : SupPc.Goes ⟨a, t, .exited, true, false, last, true⟩ (.ask .outer)
    ⟨a, t, .exited, true, false, last, true⟩ (.join ⟨t, 0⟩) := by
  intro m d k cv hm
  rw [← hm.eq]
  exact ⟨10, _, _, Ctl.scene_shows _ _ _, rfl⟩

theorem SupPc.goes_reopen : SupPc.Goes ⟨a, t, .exited, true, false, last, true⟩ (.setJoined ⟨t, 0⟩)
    ⟨a, t, .starting, false, false, t, false⟩ (.create ⟨t, 0⟩) := by
  intro m d k cv hm
  rw [← hm.eq]
  exact ⟨17, _, _, ⟨rfl, rfl, rfl, rfl, rfl, rfl, rfl, rfl, rfl, rfl, rfl, rfl⟩, rfl⟩

theorem SupPc.goes_restarted : SupPc.Goes ⟨a, t, .starting, false, false, t, false⟩ (.restarted ⟨t, 0⟩)
    ⟨a, t, .starting, false, false, t, false⟩ (.sliceClock ⟨t, 1⟩) := by
  intro m d k cv hm
  rw [← hm.eq]
  exact ⟨3, _, _, ⟨rfl, rfl, rfl, rfl, rfl, rfl, rfl, rfl, rfl, rfl, rfl, rfl⟩, rfl⟩

end Stretch

/-- A thread has just been created for worker 0, `a` aborts are on record, and the supervisor is about
to look. -/
def Pool.Anew (a : Nat) (s : Pool) : Prop :=
  ∃ t last k, s.Round ⟨a, t, .starting, false, false, last, false⟩ k (.ask .outer) .entry

/-- **Step lemma.** A round records one more abort and ends as it began. -/
theorem Pool.Anew.round {s : Pool} {a : Nat} (h : s.Anew a) :
    ∃ s', Reaches s s' ∧ s'.Anew ((a + 1) % 2 ^ 64) := by
  obtain ⟨t, last, k, h₀⟩ := h
  obtain ⟨s₁, r₁, h₁⟩ := h₀.worker_goes (WorkerPc.goes_running a t last)
  obtain ⟨s₂, r₂, h₂⟩ := h₁.tick 2000000
  obtain ⟨s₃, r₃, h₃⟩ := h₂.sup_goes (SupPc.goes_inspect a _ t)
  obtain ⟨s₄, r₄, h₄⟩ := h₃.sup_goes (SupPc.goes_stalled a t)
  obtain ⟨s₅, r₅, h₅⟩ := h₄.sup_goes (SupPc.goes_stop a _ t)
  obtain ⟨s₆, r₆, h₆⟩ := h₅.tick 1000000
  obtain ⟨s₇, r₇, h₇⟩ := h₆.sup_goes (SupPc.goes_graceDone a _ _ t)
  obtain ⟨s₈, r₈, h₈⟩ := h₇.sup_goes (SupPc.goes_after a _ _ t)
  obtain ⟨s₉, r₉, h₉⟩ := h₈.sup_goes (SupPc.goes_noProgress a _ _ t)
  obtain ⟨s₁₀, r₁₀, h₁₀⟩ := h₉.sup_goes (SupPc.goes_quarantine a _ _ t)
  obtain ⟨s₁₁, r₁₁, h₁₁⟩ := h₁₀.sup_goes (SupPc.goes_slice _ _ rfl _ rfl)
  obtain ⟨s₁₂, r₁₂, h₁₂⟩ := h₁₁.worker_goes (WorkerPc.goes_exit _ _ t)
  obtain ⟨s₁₃, r₁₃, h₁₃⟩ := h₁₂.sup_goes (SupPc.goes_restart _ _ t)
  obtain ⟨s₁₄, r₁₄, h₁₄⟩ := h₁₃.join
  obtain ⟨s₁₅, r₁₅, h₁₅⟩ := h₁₄.sup_goes (SupPc.goes_reopen _ _ t)
  obtain ⟨s₁₆, r₁₆, h₁₆⟩ := h₁₅.create
  obtain ⟨s₁₇, r₁₇, h₁₇⟩ := h₁₆.sup_goes (SupPc.goes_restarted _ _)
  obtain ⟨s₁₈, r₁₈, h₁₈⟩ := h₁₇.tick 1000000
  obtain ⟨s₁₉, r₁₉, h₁₉⟩ := h₁₈.sup_goes (SupPc.goes_slice _ _ rfl _ rfl)
  have hfirst : Reaches s s₁₁ := r₁.trans (r₂.trans (r₃.trans (r₄.trans (r₅.trans (r₆.trans
    (r₇.trans (r₈.trans (r₉.trans (r₁₀.trans r₁₁)))))))))
  have hlast : Reaches s₁₁ s₁₉ := r₁₂.trans (r₁₃.trans (r₁₄.trans (r₁₅.trans (r₁₆.trans (r₁₇.trans
    (r₁₈.trans r₁₉))))))
  exact ⟨s₁₉, hfirst.trans hlast, _, _, _, h₁₉⟩

/-- A claim on shard 0, which is not committed, and the supervisor's first two accesses. -/
theorem Pool.Anew.first : ∃ s, Reaches (Pool.init .watched 0) s ∧ s.Anew 0 := by
  obtain ⟨q, hclaim, hctl, hactive, hring⟩ : ∃ q : Solo,
      Solo.run .watched (.api 0) 0 14 ⟨(Pool.init .watched 0).ctl, (Pool.init .watched 0).dat,
        .api (ApiCall.start .watched true (.claim false 0)), Ring.init id, .idle⟩ = some q ∧
      q.ctl = (Pool.init .watched 0).ctl ∧ q.dat.activeSubmits = 1 ∧ q.ring = claimedRing false 0 :=
    ⟨_, rfl, rfl, rfl, rfl⟩
  have hheld : Reaches _ ((Pool.init .watched 0).at (.api 0) 0 q) :=
    Pool.begin_run (e := .call 0 true (.claim false 0)) rfl rfl rfl rfl rfl trivial
      (fun _ _ ↦ trivial) hclaim
  have hloop : Solo.run .watched .sup 0 2 ⟨q.ctl, q.dat, .sup .phase, q.ring, .idle⟩ =
      some ⟨{ (Pool.init .watched 0).ctl with supervisorPhase := 2, supervisorAlive := true }, q.dat,
        .sup (.ask .outer), claimedRing false 0, .idle⟩ := by
    rw [hctl, hring]
    rfl
  have hself := Pool.at_self (s := (Pool.init .watched 0).at (.api 0) 0 q) (a := .sup) (i := 0) rfl
  have hsup : Reaches _ _ := Pool.at_run (a := .sup) (s := (Pool.init .watched 0).at (.api 0) 0 q)
    (fun _ _ ↦ trivial) rfl hloop
  refine ⟨_, hheld.trans (hself ▸ hsup), 0, 0, 0,
    ⟨rfl, rfl, rfl, rfl, rfl, rfl, rfl, rfl, rfl, rfl, rfl, rfl⟩, hactive, ⟨0, rfl⟩, rfl, rfl,
    fun _ _ ↦ rfl, fun n hn ↦ ?_⟩
  cases n with
  | zero => cases hn
  | succ n => rfl

theorem Pool.Anew.often (n : Nat) : ∃ s, Reaches (Pool.init .watched 0) s ∧ s.Anew (n % 2 ^ 64) := by
  induction n with
  | zero => exact Pool.Anew.first
  | succ n ih =>
    obtain ⟨s, hs, h⟩ := ih
    obtain ⟨s', hs', h'⟩ := h.round
    rw [Nat.mod_add_mod] at h'
    exact ⟨s', hs.trans hs', h'⟩

/-! ## Shutdown after the rounds -/

section Shut

variable (m : Ctl) (d : Dat) (a t last k cv : Nat)

/-- The executor waits for the claim until its deadline. -/
theorem ShutPc.runs_wait : Solo.run .watched (.api 1) 0 7
    ⟨m.scene ⟨a, t, .starting, false, false, last, false⟩ k, { d with activeSubmits := 1 },
      .shut .start, claimedRing false cv, .idle⟩ =
    some ⟨{ m.scene ⟨a, t, .starting, false, false, last, false⟩ k with
        lifecycle := .quiescing, executor := some (.api 1), lifeCv := m.lifeCv + 1 },
      { d with activeSubmits := 1 }, .shut (.activeClock (t + 10000000)), claimedRing false cv,
      .idle⟩ := rfl

/-- The executor's locals once it has given up on the claim, the deadline being `t`. -/
def Exec.late (t aborts : Nat) : Exec := ⟨t, aborts, false⟩

/-- It gives up on the claim, and takes the rest as it finds it. -/
theorem ShutPc.runs_timeout : Solo.run .watched (.api 1) 0 17
    ⟨{ m.scene ⟨a, t, .starting, false, false, last, false⟩ k with lifecycle := .quiescing },
      { d with activeSubmits := 1 }, .shut (.activeTest t), claimedRing false cv, .idle⟩ =
    some ⟨{ m.scene ⟨(a + 1) % 2 ^ 64, t, .starting, false, false, last, false⟩ k with
        lifecycle := .draining, lifeCv := m.lifeCv + 1, quarantined := true, framesClosed := true
        supervisorStop := true },
      { d with activeSubmits := 1 }, .shut (.supClock (.late t 1)), claimedRing true (cv + 1),
      .idle⟩ := rfl

/-- Nor does it join the supervisor. -/
theorem ShutPc.runs_late : Solo.run .watched (.api 1) 0 19
    ⟨{ m.scene ⟨a, t, .starting, false, false, last, false⟩ k with
        lifecycle := .draining, supervisorStop := true },
      { d with activeSubmits := 1 }, .shut (.supPhase2 (.late t 1)), claimedRing true cv, .idle⟩ =
    some ⟨{ (m.scene ⟨a, t, .starting, false, false, last, false⟩ k).setW 0
          ({ · with state := .quarantined, late := true }) with
        lifecycle := .draining, supervisorStop := true, quarantined := true, framesClosed := true
        shutdownAborts := (a + 1) % 2 ^ 64 },
      { d with activeSubmits := 1 }, .shut (.persistCas (.late t 2)), claimedRing true (cv + 1),
      .idle⟩ := rfl

end Shut

/-- An abort is on record, and the pool is stopped. -/
theorem ShutPc.runs_stop {m : Ctl} (d : Dat) (r : Ring Nat Agent Nat) (x : Exec)
    (hmu : m.lifeMu = none) (ha : m.shutdownAborts ≠ 0) : Solo.run .watched (.api 1) 0 5
    ⟨m, d, .shut (.persistCas x), r, .idle⟩ =
    some ⟨{ m with lifecycle := .stopped, lifeCv := m.lifeCv + 1 }, d, .shut (.tailAborts x), r,
      .idle⟩ := by
  have hpersist : m.persistAbort = { m with lifeMu := none } := by
    rw [Ctl.persistAbort, if_neg ha, ← hmu]
  have hcas : Solo.run .watched (.api 1) 0 1 ⟨m, d, .shut (.persistCas x), r, .idle⟩ =
      some ⟨{ m with lifeMu := none }, d, .shut (.lifeLock x true), r, .idle⟩ := by
    rw [← hpersist]
    rfl
  rw [Solo.run_add (k := 4) 1 hcas, ← hmu]
  rw [hmu]
  rfl

/-- The conversion of `2 ^ 31`. -/
theorem abortsInt_wraps : abortsInt (2 ^ 31) = -2147483648 := by
  unfold abortsInt
  rfl

theorem ShutPc.runs_tail {m : Ctl} (d : Dat) (r : Ring Nat Agent Nat) (t : Nat)
    (ha : abortsInt m.shutdownAborts = -2147483648) : Solo.run .watched (.api 1) 0 1
    ⟨m, d, .shut (.tailAborts (.late t 2)), r, .idle⟩ = some ⟨m, d, .shut (.done 2), r, .idle⟩ := by
  have hmax : max (abortsInt m.shutdownAborts) 2 = 2 := by
    rw [ha]
    rfl
  simp [Solo.run, Solo.next, Solo.own, Loc.active, ShutPc.next, Exec.late, hmax, Cmd.apply]

theorem ShutPc.runs_observe {m : Ctl} (d : Dat) (r : Ring Nat Agent Nat) (hl : m.lifecycle = .stopped)
    (ha : abortsInt m.shutdownAborts = -2147483648) : Solo.run .watched (.api 2) 0 2
    ⟨m, d, .shut .start, r, .idle⟩ = some ⟨m, d, .shut (.done (-2147483648)), r, .idle⟩ := by
  simp [Solo.run, Solo.next, Solo.own, Loc.active, ShutPc.next, hl, ha, Cmd.apply]

theorem ShutPc.runs_deadline {m : Ctl} (d : Dat) (r : Ring Nat Agent Nat) {p : ShutPc} (p' : ShutPc)
    (hp : p.next .watched m d.activeSubmits (.api 1) .idle .go = some (m, p', .stay)) :
    Solo.run .watched (.api 1) 0 1 ⟨m, d, .shut p, r, .idle⟩ = some ⟨m, d, .shut p', r, .idle⟩ := by
  simp [Solo.run, Solo.next, Solo.own, Loc.active, hp, Cmd.apply]

/-- After the rounds, shutdown gives up on the claim and on the supervisor. -/
theorem Pool.Anew.stop {s : Pool} (h : s.Anew (2 ^ 31 - 2)) :
    ∃ s', Reaches s s' ∧ s'.ctl.lifecycle = .stopped ∧ s'.ctl.shutdownAborts = 2 ^ 31 ∧
      (s'.thr (.api 1)).pc = .shut (.done 2) ∧ s'.thr (.api 2) = ⟨.api .idle, 0, .idle⟩ := by
  obtain ⟨t, last, k, h⟩ := h
  obtain ⟨cv, hring⟩ := h.ring
  have hdat : s.dat = { s.dat with activeSubmits := 1 } := by rw [← h.active]
  have hcount : ((2 ^ 31 - 2 + 1) % 2 ^ 64 + 1) % 2 ^ 64 = 2 ^ 31 := rfl
  have r₁ : Reaches s _ := Pool.begin_run (n := 1) (e := .shutdown 1 false) (h.idle 1 Nat.one_pos)
    h.ctl.eq.symm hdat hring rfl (fun _ ↦ rfl) (fun _ _ ↦ trivial)
    (ShutPc.runs_wait s.ctl s.dat (2 ^ 31 - 2) t last k cv)
  have r₂ := r₁.trans (Pool.at_tick 10000000 trivial)
  have r₃ := r₂.trans (Pool.at_run (fun _ _ ↦ trivial) rfl
    (ShutPc.runs_deadline _ _ (.activeTest (t + 10000000)) (by simp [ShutPc.next, Ctl.scene])))
  have r₄ := r₃.trans (Pool.at_run (fun _ _ ↦ trivial) rfl
    (ShutPc.runs_timeout { s.ctl with executor := some (.api 1), lifeCv := s.ctl.lifeCv + 1 } s.dat
      (2 ^ 31 - 2) (t + 10000000) last k cv))
  have r₅ := r₄.trans (Pool.at_run (fun _ _ ↦ trivial) rfl
    (ShutPc.runs_deadline _ _ (.supPhase2 (.late (t + 10000000) 1))
      (by simp [ShutPc.next, Ctl.scene, Exec.late])))
  have r₆ := r₅.trans (Pool.at_run (fun _ _ ↦ trivial) rfl
    (ShutPc.runs_late
      { s.ctl with
        executor := some (.api 1), lifeCv := s.ctl.lifeCv + 2, quarantined := true
        framesClosed := true } s.dat _ (t + 10000000) last k (cv + 1)))
  have r₇ := r₆.trans (Pool.at_run (fun _ _ ↦ trivial) rfl (ShutPc.runs_stop _ _ _ rfl
    fun hz ↦ absurd (hcount.symm.trans hz) (by decide)))
  have r₈ := r₇.trans (Pool.at_run (fun _ _ ↦ trivial) rfl
    (ShutPc.runs_tail _ _ (t + 10000000) ((congrArg abortsInt hcount).trans abortsInt_wraps)))
  exact ⟨_, r₈, rfl, hcount, congrArg Thread.pc Pool.at_thr_self,
    (Pool.at_thr_of_ne (by simp)).trans (h.idle 2 Nat.two_pos)⟩

/-- From `2 ^ 31` aborts on, the call that has stopped the pool reports 2, and the next one a negative
value. -/
theorem shutdown_results_wrap : ∃ s : Pool,
    Steps (Pool.step .watched) (Outside fun _ ↦ True) (Pool.init .watched 0) s ∧
    s.ctl.shutdownAborts = 2 ^ 31 ∧ (s.thr (.api 1)).pc = .shut (.done 2) ∧
    (s.thr (.api 2)).pc = .shut (.done (-2147483648)) := by
  obtain ⟨s, hs, h⟩ := Pool.Anew.often (2 ^ 31 - 2)
  obtain ⟨s', hs', hl, ha, hone, hidle⟩ := Pool.Anew.stop h
  have hwraps : abortsInt s'.ctl.shutdownAborts = -2147483648 := by
    rw [ha, abortsInt_wraps]
  have htwo : Reaches s' _ := Pool.begin_run (n := 2) (e := .shutdown 2 false) hidle rfl rfl rfl rfl
    (fun _ ↦ rfl) (fun _ _ ↦ trivial) (ShutPc.runs_observe s'.dat (s'.ring 0) hl hwraps)
  refine ⟨_, (hs.trans hs').trans htwo, ha, ?_, congrArg Thread.pc Pool.at_thr_self⟩
  rw [Pool.at_thr_of_ne (by simp)]
  exact hone

end Awp
