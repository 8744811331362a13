import AsyncWorkerPool.Pool.Deliver
import AsyncWorkerPool.Pool.Intact

/-!
# Guards — the claims of the Rust binding

`AsyncWorkerPool::claim` wraps a claim in a `ClaimGuard`.  `commit` calls `awp_commit_frame`;
`abort` sets `committed`, `drop` has an empty body, and neither of the two calls into the pool.  A
guard that is gone without a commit leaves its claim with nobody who could go on with it; where every
guard commits, claims leave nothing behind, and the shards deliver.
-/

open Foundation

namespace Awp

/-! ## The pool and its guards -/

structure Guarded where
  pool : Pool
  /-- The guards that are gone without a commit, with the `committed` that they ended with. -/
  gone : Nat → Option Bool

inductive GuardLabel where
  | pool (e : Label)
  | abort (n : Nat)
  | drop (n : Nat)
  deriving DecidableEq

/-- The guard of party `n` ends, without a call of `awp_commit_frame`. -/
def Guarded.finish (g : Guarded) (n : Nat) (committed : Bool) : Option Guarded :=
  match (g.pool.thr (.api n)).pc, g.gone n with
  | .api (.claimed _ _), none =>
    some { g with gone := Function.update g.gone n (some committed) }
  | _, _ => none

/-- The step would be one of a call whose guard is gone. -/
def Guarded.orphan (g : Guarded) : Label → Bool
  | .step (.api n) _ => (g.gone n).isSome
  | _ => false

def Guarded.step (c : Config) (g : Guarded) : GuardLabel → Option Guarded
  | .pool e => if g.orphan e then none else (g.pool.step c e).map fun s ↦ { g with pool := s }
  | .abort n => g.finish n true
  | .drop n => g.finish n false

def Guarded.init (c : Config) (now : Nat) : Guarded := ⟨Pool.init c now, fun _ ↦ none⟩

/-! ## Claims that leave nothing behind -/

/-- Inside `awp_claim_frame`, with a claim in hand, or inside its `awp_commit_frame`. -/
def ApiPc.claiming : ApiPc → Bool
  | .claimEnter j | .gate j _ | .reserve j | .activate j _ | .fill j _ _ | .publish j _
  | .submitted j _ | .deactivate j _ _ | .leave j _ _ => j.kind = .claim
  | .claimed _ _ => true
  | _ => false

def Pc.claiming : Pc → Bool
  | .api p => p.claiming
  | _ => false

/-- Every claim has been resolved: its call is over, or its guard is gone. -/
def Guarded.Resolved (g : Guarded) : Prop :=
  ∀ n, (g.pool.thr (.api n)).pc.claiming = true → g.gone n ≠ none

/-- The pool goes on, and no guard ends without a commit. -/
def Guarded.onward (c : Config) (g : Guarded) (e : Label) : Option Guarded := g.step c (.pool e)

/-- The claim of a call that has not been committed has not been passed to `process`, neither its
position nor its slot. -/
def Guarded.Unread (c : Config) (g : Guarded) : Prop :=
  ∀ n pos, (g.pool.thr (.api n)).pc.claiming = true → (g.pool.thr (.api n)).loc.owns = some pos →
    pos ∉ started (g.pool.ctl.w (g.pool.thr (.api n)).sh).events ∧
    ∀ x, g.pool.reads true (g.pool.thr (.api n)).sh = some x → c.slot pos ≠ x.2

/-- The claims have left nothing behind: the counters count the other calls alone, no frame that is
not committed is read, and from here on every position that is reserved on a shard that is served
comes to be passed to `process`, unless the worker is told to stop or its ring is closed. -/
structure Guarded.Harmless (c : Config) (g : Guarded) : Prop where
  refs : Counted (fun n ↦ (g.pool.thr (.api n)).pc.holdsRef = true ∧
    (g.pool.thr (.api n)).pc.claiming = false) g.pool.dat.apiRefs
  active : Counted (fun n ↦ (g.pool.thr (.api n)).pc.holdsActive = true ∧
    (g.pool.thr (.api n)).pc.claiming = false) g.pool.dat.activeSubmits
  uncommitted : g.Unread c
  delivered : ∀ g', Steps (Guarded.onward c) anyStep g g' → ∀ i q, g'.pool.Served c i →
    q < (g'.pool.ring i).enqueuePos →
    Inevitable (Guarded.onward c) (fun x t ↦ Duty.own x t.pool) g' fun t ↦
      q ∈ started (t.pool.ctl.w i).events ∨ (t.pool.ctl.w i).stop = true ∨
        (t.pool.ring i).closed = true

/-- The step reserves no position whose frame the worker has in hand. -/
def Guarded.Spaced (c : Config) (g : Guarded) : GuardLabel → Prop
  | .pool e => Awp.Spaced c g.pool e
  | _ => True

instance (c : Config) (g : Guarded) : ∀ e, Decidable (Guarded.Spaced c g e)
  | .pool e => inferInstanceAs (Decidable (Awp.Spaced c g.pool e))
  | .abort _ | .drop _ => inferInstanceAs (Decidable True)

/-! ## A claim that is held -/

section Held

variable {c : Config} {s s' : Pool}

/-- A position that is owned has not been popped. -/
theorem Sound.owned_ge (h : Sound c s) {a : Agent} {pos : Nat} (hl : (s.thr a).loc.owns = some pos) :
    (s.ring (s.thr a).sh).dequeuePos ≤ pos := by
  obtain ⟨g, hc, -⟩ := (h.rings (s.thr a).sh).laps
  have hown := hc.locs a
  rw [show (s.shard (s.thr a).sh).loc a = (s.thr a).loc from if_pos rfl] at hown
  have hg : g (pos % c.capacity.val) = ⟨pos, .reserved a⟩ := by
    cases hloc : (s.thr a).loc <;> rw [hloc] at hl hown <;> cases hl
    · exact hown
    · exact hown.1
    · exact hown.1
  have htaken := (hc.cell _ (Nat.mod_lt pos c.capacity.pos)).taken
  rw [hg] at htaken
  by_contra hlt
  cases htaken.mpr (not_le.mp hlt)

/-- What has been passed to `process` lies before every position that is owned. -/
theorem Orderly.called_lt (ho : Orderly c s) {a : Agent} {pos q : Nat}
    (hl : (s.thr a).loc.owns = some pos) (hq : q ∈ started (s.ctl.w (s.thr a).sh).events) :
    q < pos := by
  obtain ⟨ph, hled⟩ := ho.ledger (s.thr a).sh
  rw [hled.serial.started_eq, List.mem_range] at hq
  have hpopped : ph.calls ≤ (s.ring (s.thr a).sh).dequeuePos := by
    by_cases hfree : ∀ b, s.inHand b (s.thr a).sh = none
    · have hdeq := hled.free hfree
      omega
    · obtain ⟨b, hb⟩ := not_forall.mp hfree
      obtain ⟨p, hp⟩ := Option.ne_none_iff_exists'.mp hb
      have hdeq := hled.hand b p hp
      omega
  have hge := ho.sound.owned_ge hl
  omega

theorem Orderly.claimed (ho : Orderly c s) {n pos : Nat} {j : Job}
    (hpc : (s.thr (.api n)).pc = .api (.claimed j pos)) :
    (s.thr (.api n)).sh = j.sh ∧ (s.thr (.api n)).loc = .held pos := by
  have hfit := ho.sound.seated.fits (.api n)
  rw [hpc] at hfit
  exact hfit

end Held

/-! ## Runs with guards -/

section Guards

variable {c : Config} {g g' : Guarded}

theorem Guarded.finish_eq {n : Nat} {committed : Bool} (h : g.finish n committed = some g') :
    (∃ j pos, (g.pool.thr (.api n)).pc = .api (.claimed j pos)) ∧ g.gone n = none ∧
      g' = { g with gone := Function.update g.gone n (some committed) } := by
  simp only [Guarded.finish] at h
  split at h
  · rename_i j pos hpc hgone
    exact ⟨⟨j, pos, hpc⟩, hgone, (Option.some.inj h).symm⟩
  · cases h

/-- Either the pool moves, or a guard ends. -/
theorem Guarded.step_cases {e : GuardLabel} (h : g.step c e = some g') :
    (∃ e', e = .pool e' ∧ g.orphan e' = false ∧ g.pool.step c e' = some g'.pool ∧
      g'.gone = g.gone) ∨
    ∃ n committed, (∃ j pos, (g.pool.thr (.api n)).pc = .api (.claimed j pos)) ∧ g.gone n = none ∧
      g' = { g with gone := Function.update g.gone n (some committed) } := by
  cases e with
  | pool e =>
    simp only [Guarded.step] at h
    split at h
    · cases h
    · rename_i horphan
      obtain ⟨s, hs, rfl⟩ := Option.map_eq_some_iff.mp h
      exact Or.inl ⟨e, rfl, by simpa using horphan, hs, rfl⟩
  | abort n => exact Or.inr ⟨n, true, Guarded.finish_eq h⟩
  | drop n => exact Or.inr ⟨n, false, Guarded.finish_eq h⟩

/-- What the pool keeps on every step of its own it keeps among guards. -/
theorem Guarded.run_pool {P : Pool → Prop} {ok : Guarded → GuardLabel → Prop}
    (hstep : ∀ s e s', P s → s.step c e = some s' → P s') (hrun : Steps (Guarded.step c) ok g g')
    (h : P g.pool) : P g'.pool :=
  hrun.invariant (P := fun g ↦ P g.pool) (fun g e g' hg _ hst ↦ by
    rcases Guarded.step_cases hst with ⟨e', -, -, hpool, -⟩ | ⟨n, committed, -, -, rfl⟩
    · exact hstep _ _ _ hg hpool
    · exact hg) h

theorem Guarded.run_orderly {ok : Guarded → GuardLabel → Prop} {now : Nat}
    (hrun : Steps (Guarded.step c) ok (Guarded.init c now) g) :
    Orderly c g.pool ∧ Accounts g.pool :=
  have hinit : Steps (Pool.step c) anyStep (Pool.init c now) (Pool.init c now) := Steps.refl _
  Guarded.run_pool (P := fun s ↦ Orderly c s ∧ Accounts s)
    (fun _ _ _ h hst ↦ ⟨h.1.step hst, h.2.step h.1.sound.seated hst⟩) hrun
    ⟨.run hinit, .init now⟩

/-- The claim of a guard that is gone is held for good. -/
theorem Guarded.step_claimed {n pos : Nat} {j : Job} (hgone : g.gone n ≠ none)
    (hpc : (g.pool.thr (.api n)).pc = .api (.claimed j pos)) {e : GuardLabel}
    (hst : g.step c e = some g') :
    g'.gone n ≠ none ∧ (g'.pool.thr (.api n)).pc = .api (.claimed j pos) := by
  rcases Guarded.step_cases hst with ⟨e', -, horphan, hpool, hsame⟩ | ⟨n', committed, -, hnone, rfl⟩
  · rw [hsame]
    refine ⟨hgone, ?_⟩
    rw [Pool.step_parked (by rw [hpc]; simp) ?_ hpool, hpc]
    rintro x rfl
    rw [Guarded.orphan, Option.isSome_eq_false_iff, Option.isNone_iff_eq_none] at horphan
    exact hgone horphan
  · have hne : n ≠ n' := by
      rintro rfl
      exact hgone hnone
    refine ⟨?_, hpc⟩
    show Function.update g.gone n' (some committed) n ≠ none
    rwa [Function.update_of_ne hne]

theorem Guarded.gone_claimed {ok : Guarded → GuardLabel → Prop} {now : Nat}
    (hrun : Steps (Guarded.step c) ok (Guarded.init c now) g) {n : Nat} (hgone : g.gone n ≠ none) :
    ∃ j pos, (g.pool.thr (.api n)).pc = .api (.claimed j pos) := by
  revert n
  refine hrun.invariant (P := fun g ↦ ∀ {n}, g.gone n ≠ none →
    ∃ j pos, (g.pool.thr (.api n)).pc = .api (.claimed j pos)) (fun g e g' h _ hst n hgone' ↦ ?_)
    (fun h ↦ absurd rfl h)
  by_cases hgone : g.gone n = none
  · -- the guard ends with this step
    rcases Guarded.step_cases hst with ⟨-, -, -, -, hsame⟩ | ⟨n', committed, hpc, -, rfl⟩
    · exact absurd (by rw [hsame, hgone]) hgone'
    · have hn : n = n' := by
        by_contra hne
        exact hgone' ((Function.update_of_ne hne _ _).trans hgone)
      exact hn ▸ hpc
  · obtain ⟨j, pos, hpc⟩ := h hgone
    exact ⟨j, pos, (Guarded.step_claimed hgone hpc hst).2⟩

/-- The claim of a guard that is gone blocks its shard, and keeps its references. -/
theorem Guarded.stuck {ok ok' : Guarded → GuardLabel → Prop} {now : Nat}
    (hrun : Steps (Guarded.step c) ok (Guarded.init c now) g) {n pos : Nat} {j : Job}
    (hgone : g.gone n ≠ none) (hpc : (g.pool.thr (.api n)).pc = .api (.claimed j pos))
    (hon : Steps (Guarded.step c) ok' g g') :
    (g'.pool.thr (.api n)).pc = .api (.claimed j pos) ∧ 0 < g'.pool.dat.apiRefs ∧
      0 < g'.pool.dat.activeSubmits ∧ ∀ q ∈ started (g'.pool.ctl.w j.sh).events, q < pos := by
  have hend := hon.invariant
    (P := fun g ↦ g.gone n ≠ none ∧ (g.pool.thr (.api n)).pc = .api (.claimed j pos))
    (fun _ _ _ h _ hst ↦ Guarded.step_claimed h.1 h.2 hst) ⟨hgone, hpc⟩
  obtain ⟨ho, hacc⟩ := Guarded.run_pool (P := fun s ↦ Orderly c s ∧ Accounts s)
    (fun _ _ _ h hst ↦ ⟨h.1.step hst, h.2.step h.1.sound.seated hst⟩) hon (Guarded.run_orderly hrun)
  obtain ⟨hsh, hl⟩ := ho.claimed hend.2
  refine ⟨hend.2, hacc.refs.pos (a := n) ?_, hacc.active.pos (a := n) ?_, fun q hq ↦ ?_⟩
  · rw [hend.2]
    rfl
  · rw [hend.2]
    rfl
  · rw [← hsh] at hq
    exact ho.called_lt (by rw [hl]; rfl) hq

/-- While no guard is gone, the pool goes on as it does by itself. -/
theorem Guarded.onward_eq (hnone : ∀ n, g.gone n = none) (e : Label) :
    g.onward c e = (g.pool.step c e).map fun s ↦ { g with pool := s } := by
  have horphan : g.orphan e = false := by
    unfold Guarded.orphan
    split
    · simp [hnone]
    · rfl
  simp only [Guarded.onward, Guarded.step, horphan, Bool.false_eq_true, if_false]

theorem Guarded.onward_pool {e : Label} (hst : g.onward c e = some g') :
    g.pool.step c e = some g'.pool ∧ g'.gone = g.gone := by
  simp only [Guarded.onward, Guarded.step] at hst
  split at hst
  · cases hst
  · obtain ⟨s, hs, rfl⟩ := Option.map_eq_some_iff.mp hst
    exact ⟨hs, rfl⟩

/-- While no guard is gone, the shards that are served deliver. -/
theorem Guarded.delivers (ho : Orderly c g.pool) (hnone : ∀ n, g.gone n = none) {i q : Nat}
    (hserved : g.pool.Served c i) (hq : q < (g.pool.ring i).enqueuePos) :
    Inevitable (Guarded.onward c) (fun x t ↦ Duty.own x t.pool) g fun t ↦
      q ∈ started (t.pool.ctl.w i).events ∨ (t.pool.ctl.w i).stop = true ∨
        (t.pool.ring i).closed = true := by
  intro π hfair
  have hkept : ∀ k n, (π.state k).gone n = none := by
    intro k
    induction k with
    | zero => rwa [π.start]
    | succ k ih => rwa [(Guarded.onward_pool (π.next k)).2]
  have hstep : ∀ k e, (π.state k).onward c e =
      ((π.state k).pool.step c e).map fun s ↦ { π.state k with pool := s } :=
    fun k e ↦ Guarded.onward_eq (hkept k) e
  obtain ⟨k, hk⟩ := ho.delivers hserved hq
    { state := fun k ↦ (π.state k).pool
      label := π.label
      start := by rw [π.start]
      next := fun k ↦ (Guarded.onward_pool (π.next k)).1 }
    fun x hposs ↦ hfair x fun k ↦ by
      obtain ⟨k', hk, e, s, hown, hs⟩ := hposs k
      exact ⟨k', hk, e, _, hown, by rw [hstep, hs]; rfl⟩
  exact ⟨k, hk⟩

/-- Every state has a run on which nobody is put off. -/
theorem Guarded.exists_fair (c : Config) (g : Guarded) :
    ∃ π : Path (Guarded.onward c) g, ∀ x, π.Strong fun t ↦ Duty.own x t.pool := by
  have hgo : ∀ t : Guarded, ∃ e u, t.onward c e = some u := fun t ↦ ⟨Label.tick 0, _, rfl⟩
  exact exists_strong (fun x (t : Guarded) ↦ Duty.own x t.pool) hgo g

/-- Where no position is reserved whose frame the worker has in hand, no claim is read before it is
committed. -/
theorem Guarded.unread {ok : Guarded → GuardLabel → Prop} {now : Nat}
    (hrun : Steps (Guarded.step c) ok (Guarded.init c now) g) (hok : ∀ t e, ok t e → t.Spaced c e) :
    g.Unread c := by
  have ho := (Guarded.run_orderly hrun).1
  have hunheld : Unheld c g.pool := hrun.invariant_under (P := fun g ↦ Unheld c g.pool)
    (Q := fun g ↦ Sound c g.pool ∧ Slotted c g.pool)
    (fun _ ht ↦ Guarded.run_pool (P := fun s ↦ Sound c s ∧ Slotted c s)
      (fun _ _ _ h hst ↦ ⟨h.1.step hst, h.2.step h.1 hst⟩) ht ⟨.init now, .init now⟩)
    (fun t e t' hs hs' h he hst ↦ by
      rcases Guarded.step_cases hst with ⟨e', rfl, -, hpool, -⟩ | ⟨n, committed, -, -, rfl⟩
      · exact h.step hs.1 hs'.2 (hok _ _ he) hpool
      · exact h) fun i k x hx ↦ by cases hx
  intro n pos _ hown
  refine ⟨fun hmem ↦ lt_irrefl pos (ho.called_lt hown hmem), fun x hx ↦ ?_⟩
  exact hunheld _ _ x hx (.api n) pos rfl hown

/-- A claim that has been given up keeps its references. -/
theorem Guarded.Harmless.none_gone {ok : Guarded → GuardLabel → Prop} {now : Nat}
    (hrun : Steps (Guarded.step c) ok (Guarded.init c now) g) (h : g.Harmless c) (n : Nat) :
    g.gone n = none := by
  by_contra hgone
  obtain ⟨j, pos, hpc⟩ := Guarded.gone_claimed hrun hgone
  have hclaims := ((Guarded.run_orderly hrun).2.refs.of_subset h.refs fun _ hn ↦ hn.1) n
    (by rw [hpc]; rfl)
  rw [hpc] at hclaims
  cases hclaims.2

/-- **Abandoned claims.**  In every reachable state in which all claims have been resolved, the
claims have left nothing behind exactly when no guard has gone without a commit (and there are runs on
which nobody is put off, so that delivery is not said of none); while no position is reserved whose
frame the worker has in hand, no claim is read before it is committed.  A guard that is gone without a
commit keeps its references and blocks its shard for good: nothing from its position on is ever passed
to `process`. -/
theorem guards_harmless {ok : Guarded → GuardLabel → Prop} {now : Nat}
    (hrun : Steps (Guarded.step c) ok (Guarded.init c now) g) :
    (g.Resolved → (g.Harmless c ↔ ∀ n, g.gone n = none)) ∧
    (∃ π : Path (Guarded.onward c) g, ∀ x, π.Strong fun t ↦ Duty.own x t.pool) ∧
    ((∀ t e, ok t e → t.Spaced c e) → g.Unread c) ∧
    ∀ n, g.gone n ≠ none → ∃ j pos, ∀ g', Steps (Guarded.step c) anyStep g g' →
      (g'.pool.thr (.api n)).pc = .api (.claimed j pos) ∧ 0 < g'.pool.dat.apiRefs ∧
        0 < g'.pool.dat.activeSubmits ∧ ∀ q ∈ started (g'.pool.ctl.w j.sh).events, q < pos := by
  obtain ⟨ho, hacc⟩ := Guarded.run_orderly hrun
  refine ⟨fun hres ↦ ⟨fun h n ↦ h.none_gone hrun n, fun hnone ↦ ?_⟩, Guarded.exists_fair c g,
    Guarded.unread hrun, fun n hgone ↦ ?_⟩
  · have hover : ∀ n, (g.pool.thr (.api n)).pc.claiming = false := fun n ↦ by
      by_contra hclaiming
      exact hres n (by simpa using hclaiming) (hnone n)
    refine ⟨hacc.refs.congr fun n ↦ by simp [hover n], hacc.active.congr fun n ↦ by simp [hover n],
      fun n pos hclaiming ↦ ?_, fun g' hon i q hserved hq ↦ ?_⟩
    · rw [hover n] at hclaiming
      cases hclaiming
    · obtain ⟨ho', hnone'⟩ := hon.invariant (P := fun t ↦ Orderly c t.pool ∧ ∀ n, t.gone n = none)
        (fun t e t' h _ hst ↦ by
          obtain ⟨hpool, hsame⟩ := Guarded.onward_pool hst
          exact ⟨h.1.step hpool, hsame ▸ h.2⟩) ⟨ho, hnone⟩
      exact Guarded.delivers ho' hnone' hserved hq
  · obtain ⟨j, pos, hpc⟩ := Guarded.gone_claimed hrun hgone
    exact ⟨j, pos, fun g' hon ↦ Guarded.stuck hrun hgone hpc hon⟩

/-! Parties that have made no call, as long as the labels begin none. -/

def GuardLabel.below (b : Nat) : GuardLabel → Bool
  | .pool e => e.below b
  | _ => true

theorem Guarded.run_idle {b now : Nat}
    (hrun : Steps (Guarded.step c) (fun _ e ↦ e.below b = true) (Guarded.init c now) g) :
    g.pool.IdleFrom b := by
  refine hrun.invariant_under (P := fun g ↦ g.pool.IdleFrom b) (fun _ ht ↦ Guarded.run_orderly ht)
    (fun u e u' ho _ h he hst ↦ ?_) (.init b now)
  rcases Guarded.step_cases hst with ⟨e', rfl, -, hpool, -⟩ | ⟨n, committed, -, -, rfl⟩
  · exact h.step ho.1.sound.seated he hpool
  · exact h

theorem Pool.IdleFrom.resolved {b : Nat} (hidle : g.pool.IdleFrom b)
    (h : ∀ n < b, (g.pool.thr (.api n)).pc.claiming = true → g.gone n ≠ none) : g.Resolved := by
  intro n hn
  by_cases hlt : n < b
  · exact h n hlt hn
  · rw [hidle n (not_lt.mp hlt)] at hn
    cases hn

/-- Steps of the pool end no guard. -/
theorem Guarded.run_gone (hrun : Steps (Guarded.step c) (fun _ e ↦ ∃ e', e = .pool e') g g') :
    g'.gone = g.gone :=
  hrun.invariant (P := fun u ↦ u.gone = g.gone) (fun u e u' hu he hst ↦ by
    obtain ⟨e, rfl⟩ := he
    simp only [Guarded.step] at hst
    split at hst
    · cases hst
    · obtain ⟨s, -, rfl⟩ := Option.map_eq_some_iff.mp hst
      exact hu) rfl

/-- The holder of a claim commits it. -/
def commits (n : Nat) : List Label := .step (.api n) .commit :: turns (.api n) 8

/-- Two claims and their commits; `process` is called for the first while the second is held. -/
def claimsThenCommits : List GuardLabel :=
  (claims 0 ++ commits 0 ++ claims 1 ++ turns (.worker 0 0) 14 ++ commits 1).map .pool

/-- They leave nothing behind. -/
theorem guards_harmless_commits : ∃ g,
    exec (guarded (Guarded.step .small) (Guarded.Spaced .small)) (Guarded.init .small 0)
      claimsThenCommits = some g ∧
    (g.pool.thr (.worker 0 0)).pc = .worker (.process 0 0 .out) ∧
    (g.pool.thr (.api 1)).pc = .api (.done 0 (some (0, 1))) ∧ g.Harmless .small ∧
    g.Unread .small := by
  have hrun : (exec (guarded (Guarded.step .small) (Guarded.Spaced .small)) (Guarded.init .small 0)
      claimsThenCommits).any (fun g ↦
        decide ((g.pool.thr (.api 0)).pc = .api (.done 0 (some (0, 0))) ∧
          (g.pool.thr (.api 1)).pc = .api (.done 0 (some (0, 1))) ∧
          (g.pool.thr (.worker 0 0)).pc = .worker (.process 0 0 .out))) = true := by decide +kernel
  obtain ⟨g, hg, hP⟩ := exec_any hrun
  obtain ⟨hdone, hdone', hprocess⟩ := of_decide_eq_true hP
  have hsteps := exec_guarded_steps hg
  have hplain := exec_of_guarded hg
  have hidle : g.pool.IdleFrom 2 := Guarded.run_idle (exec_steps_of hplain fun _ ↦ by decide)
  have hkept : g.gone = fun _ ↦ none := Guarded.run_gone (exec_steps_of hplain fun _ a ha ↦ by
    obtain ⟨e, -, rfl⟩ := List.mem_map.mp ha
    exact ⟨e, rfl⟩)
  have hres : g.Resolved := hidle.resolved fun n hn hclaiming ↦ by
    rcases (by omega : n = 0 ∨ n = 1) with rfl | rfl
    · rw [hdone] at hclaiming
      cases hclaiming
    · rw [hdone'] at hclaiming
      cases hclaiming
  obtain ⟨hharmless, -, hunread, -⟩ := guards_harmless hsteps
  exact ⟨g, hg, hprocess, hdone', (hharmless hres).mpr fun n ↦ congrFun hkept n,
    hunread fun _ _ h ↦ h⟩

/-- A claim, whose guard is dropped, and a submission to the same shard. -/
def claimThenDrop : List GuardLabel :=
  (claims 0).map .pool ++ .drop 0 :: (submits 1 0).map .pool

/-- The submission succeeds, and its frame is never delivered. -/
theorem claim_abandoned : ∃ g,
    exec (Guarded.step .small) (Guarded.init .small 0) claimThenDrop = some g ∧ g.Resolved ∧
    (g.pool.thr (.api 1)).pc = .api (.done 0 (some (0, 1))) ∧ g.pool.Served .small 0 ∧
    (g.pool.ring 0).enqueuePos = 2 ∧ g.pool.dat.apiRefs = 1 ∧ g.pool.dat.activeSubmits = 1 ∧
    (∀ g', Steps (Guarded.step .small) anyStep g g' →
      1 ∉ started (g'.pool.ctl.w 0).events) ∧ ¬ g.Harmless .small := by
  have hrun : (exec (Guarded.step .small) (Guarded.init .small 0) claimThenDrop).any (fun g ↦
      decide ((g.pool.thr (.api 0)).pc = .api (.claimed ⟨.claim, 0, 0, false⟩ 0) ∧
        g.gone 0 = some false ∧ (g.pool.thr (.api 1)).pc = .api (.done 0 (some (0, 1))) ∧
        g.pool.dat.apiRefs = 1 ∧ g.pool.dat.activeSubmits = 1 ∧
        (g.pool.ctl.w 0).cur = 0 ∧ (g.pool.thr (.worker 0 0)).pc = .worker .entry ∧
        (g.pool.ctl.w 0).stop = false ∧ (g.pool.ring 0).closed = false ∧
        (g.pool.ring 0).enqueuePos = 2)) = true := by decide +kernel
  obtain ⟨g, hg, hP⟩ := exec_any hrun
  obtain ⟨hclaimed, hgone, hdone, hrefs, hactive, hcur, hentry, hstop, hopen, henq⟩ :=
    of_decide_eq_true hP
  have hidle : g.pool.IdleFrom 2 := Guarded.run_idle (exec_steps_of hg fun _ ↦ by decide)
  have hres : g.Resolved := hidle.resolved fun n hn hclaiming ↦ by
    rcases (by omega : n = 0 ∨ n = 1) with rfl | rfl
    · rw [hgone]
      simp
    · rw [hdone] at hclaiming
      cases hclaiming
  have hserved : g.pool.Served .small 0 :=
    ⟨by decide, ⟨.entry, by rw [Pool.server, hcur, hentry], rfl⟩, hstop, hopen⟩
  have hnever : ∀ g', Steps (Guarded.step .small) anyStep g g' →
      1 ∉ started (g'.pool.ctl.w 0).events := fun g' hon hmem ↦ by
    obtain ⟨-, -, -, hbefore⟩ :=
      Guarded.stuck (exec_steps hg) (by rw [hgone]; simp) hclaimed hon
    exact absurd (hbefore 1 hmem) (by decide)
  refine ⟨g, hg, hres, hdone, hserved, henq, hrefs, hactive, hnever, fun h ↦ ?_⟩
  rw [h.none_gone (exec_steps hg) 0] at hgone
  cases hgone

end Guards

end Awp
