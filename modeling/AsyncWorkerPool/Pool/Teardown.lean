import AsyncWorkerPool.Pool.Verdict

/-!
# Teardown — `Drop for AsyncWorkerPool`

The Rust binding passes a boxed `CallbackContext` as `cfg.user`.  Its `drop` calls
`awp_pool_shutdown` and `awp_pool_destroy`, looks at the result of neither, and leaves the box to be
freed.  The pool may be dropped inside a callback, too; there the shutdown returns `-EDEADLK` without
an access, and `awp_pool_destroy` marks quarantine.
-/

open Foundation

namespace Awp

/-! ## The pool and its context -/

/-- How far `drop` has come. -/
inductive Dropping where
  | inUse
  | shutdown (n : Nat)
  | destroy (n : Nat)
  /-- Inside a callback of thread `k` of worker `i`. -/
  | nested (i k : Nat)
  /-- `_context` has been freed. -/
  | freed
  deriving DecidableEq

structure Wrapper where
  pool : Pool
  drop : Dropping

/-- The calls of `drop` are numbered like others; `nested` and `free` are the two that have none. -/
inductive WrapLabel where
  | pool (e : Label)
  | shutdown (n : Nat)
  | destroy (n : Nat)
  | nested (i k : Nat)
  | free
  deriving DecidableEq

/-- Whether the binding makes the step while the pool is in use, or already in `drop`. -/
def Dropping.admits (p : Dropping) : Label → Bool
  | .call _ _ _ => p = .inUse
  | .shutdown _ _ | .destroy _ => false
  | .tick _ | .step _ _ => true

/-- `awp_pool_shutdown` has returned. -/
def Pc.shutDone : Pc → Bool
  | .shut (.done _) => true
  | _ => false

/-- `awp_pool_destroy` has returned. -/
def Pc.destroyDone : Pc → Bool
  | .destroy .released | .destroy .leaked | .destroy .refused => true
  | _ => false

/-- In the code of a callback. -/
def Pc.inCallback : Pc → Bool
  | .worker (.process _ _ .out) | .worker (.onError _ _ _ .out) => true
  | _ => false

def Wrapper.step (c : Config) (w : Wrapper) : WrapLabel → Option Wrapper
  | .pool e =>
    if w.drop.admits e then (w.pool.step c e).map fun s ↦ { w with pool := s } else none
  | .shutdown n =>
    if w.drop = .inUse then (w.pool.step c (.shutdown n false)).map fun s ↦ ⟨s, .shutdown n⟩
    else none
  | .destroy n =>
    match w.drop with
    | .shutdown n' =>
      if (w.pool.thr (.api n')).pc.shutDone then
        (w.pool.step c (.destroy n)).map fun s ↦ ⟨s, .destroy n⟩
      else none
    | _ => none
  | .nested i k =>
    if w.drop = .inUse then
      (w.pool.step c (.step (.worker i k) .nested)).map fun s ↦ ⟨s, .nested i k⟩
    else none
  | .free =>
    match w.drop with
    | .destroy n => if (w.pool.thr (.api n)).pc.destroyDone then some { w with drop := .freed } else none
    | .nested i k =>
      if (w.pool.thr (.worker i k)).pc.inCallback then some { w with drop := .freed } else none
    | _ => none

def Wrapper.init (c : Config) (now : Nat) : Wrapper := ⟨Pool.init c now, .inUse⟩

/-- The context is freed only when the supervisor and all workers are marked as joined. -/
def FreesJoined (c : Config) (w : Wrapper) : WrapLabel → Prop
  | .free => w.pool.ctl.Settled c
  | _ => True

instance (c : Config) (m : Ctl) : Decidable (m.Settled c) :=
  inferInstanceAs (Decidable (m.supervisorJoined = true ∧ ∀ i < c.nWorkers, (m.w i).joined = true))

instance (c : Config) (w : Wrapper) : (e : WrapLabel) → Decidable (FreesJoined c w e)
  | .free => inferInstanceAs (Decidable (w.pool.ctl.Settled c))
  | .pool _ | .shutdown _ | .destroy _ | .nested _ _ => inferInstanceAs (Decidable True)

/-! ## Joined threads stay joined -/

section Settled

variable {c : Config} {s s' : Pool}

theorem ShutPc.next_joined {m m' : Ctl} {active : Int} {me : Agent} {l : Loc Nat Nat} {x : Choice}
    {k : Cmd} {p p' : ShutPc} (hn : p.next c m active me l x = some (m', p', k)) (i : Nat)
    (hj : (m.w i).joined = true) : (m'.w i).joined = true := by
  have hset : ∀ j (f : Worker → Worker), ((m.w j).joined = true → (f (m.w j)).joined = true) →
      ((m.setW j f).w i).joined = true := fun j f hf ↦
    Ctl.setW_all (P := fun w w' ↦ w.joined = true → w'.joined = true) (fun _ h ↦ h) hf i hj
  cases p with
  | timeoutClose e i | closeAll e i | lateClose e i =>
    simp only [ShutPc.next] at hn
    split at hn
    · rwa [(closeCall_cases hn).1]
    · cases hn
      exact hj
  | stopClose e i => rwa [(closeCall_cases hn).1]
  | waitLock | waitRelock | quiesceLock | lifeLock e last =>
    simp only [ShutPc.next, Option.map_eq_some_iff, Prod.mk.injEq] at hn
    obtain ⟨m₁, hm, rfl, -, -⟩ := hn
    rwa [(Ctl.lockLife_eq hm).2]
  | drainPop e i =>
    have hm : m' = m := by
      cases l <;> simp only [ShutPc.next] at hn <;> grind
    rwa [hm]
  | joinCreate e t =>
    cases x with
    | go =>
      cases hn
      exact hj
    | rc n =>
      simp only [ShutPc.next] at hn
      split at hn <;> cases hn
      exact hj
    | _ => cases hn
  | cas life | waitLife | waitBlocked ticket | anyQuarantined e i =>
    simp only [ShutPc.next] at hn
    split at hn <;> cases hn <;> exact hj
  | setJoined e j late =>
    cases hn
    exact hset j _ fun _ ↦ rfl
  | done rc => cases hn
  | _ =>
    obtain ⟨rfl, rfl, rfl⟩ := outcome_inj hn
    first | exact hj | exact hset _ _ id

/-- Once everything has been joined it stays so, no thread is created, and no callback begins or
returns. -/
theorem Sound.settled_step (hs : Sound c s) (hset : s.ctl.Settled c) {e : Label}
    (hst : s.step c e = some s') :
    s'.ctl.Settled c ∧ ∀ i, (s'.ctl.w i).events = (s.ctl.w i).events ∧
      (s'.ctl.w i).spawned = (s.ctl.w i).spawned := by
  have hsame : ∀ {m : Ctl}, m.w = s.ctl.w → m.supervisorJoined = s.ctl.supervisorJoined →
      m.Settled c ∧ ∀ i, (m.w i).events = (s.ctl.w i).events ∧
        (m.w i).spawned = (s.ctl.w i).spawned := by
    intro m hw hj
    refine ⟨⟨hj.trans hset.1, fun i hi ↦ ?_⟩, fun i ↦ ?_⟩ <;> rw [hw]
    · exact hset.2 i hi
    · exact ⟨rfl, rfl⟩
  cases Pool.step_act hs.seated hst with
  | tick | call | shutdown | destroyed | access | api => exact hsame rfl rfl
  | shut n x hw hp hn hk =>
    refine ⟨⟨ShutPc.next_supJoined hn hset.1, fun i hi ↦ ShutPc.next_joined hn i (hset.2 i hi)⟩,
      fun i ↦ ?_⟩
    have hframe := (ShutPc.next_frame hn).2 i
    have hevents := congrArg Worker.events hframe
    have hspawned := congrArg Worker.spawned hframe
    exact ⟨hevents, hspawned⟩
  | destroy n x hp hn hfrom hto hframe hk =>
    have hw := congrArg Ctl.w hframe
    have hj := congrArg Ctl.supervisorJoined hframe
    exact hsame hw hj
  | worker i j x hi hj hp hn hk =>
    rw [hs.worker_done hset hi hj hp] at hn
    cases hn
  | sup x he hp hn hk =>
    rw [hs.sup_done hset he hp] at hn
    cases hn
  | helper j x hj hp hn hk =>
    have hframe := HelperPc.next_frame hn
    have hw := congrArg Ctl.w hframe
    have hj := congrArg Ctl.supervisorJoined hframe
    exact hsame hw hj

end Settled

/-! ## Runs -/

section Run

variable {c : Config} {w w' : Wrapper}

/-- Either the pool moves, or the context is freed. -/
theorem Wrapper.step_cases {e : WrapLabel} (h : w.step c e = some w') :
    (∃ e', w.pool.step c e' = some w'.pool ∧ (w'.drop = .freed → w.drop = .freed)) ∨
    (e = .free ∧ w'.pool = w.pool) := by
  cases e with
  | pool e =>
    simp only [Wrapper.step] at h
    split at h
    · obtain ⟨s, hs, rfl⟩ := Option.map_eq_some_iff.mp h
      exact Or.inl ⟨e, hs, id⟩
    · cases h
  | shutdown n | nested i k =>
    simp only [Wrapper.step] at h
    split at h
    · obtain ⟨s, hs, rfl⟩ := Option.map_eq_some_iff.mp h
      exact Or.inl ⟨_, hs, nofun⟩
    · cases h
  | destroy n =>
    simp only [Wrapper.step] at h
    split at h
    · split at h
      · obtain ⟨s, hs, rfl⟩ := Option.map_eq_some_iff.mp h
        exact Or.inl ⟨_, hs, nofun⟩
      · cases h
    · cases h
  | free =>
    refine Or.inr ⟨rfl, ?_⟩
    simp only [Wrapper.step] at h
    split at h
    · split at h <;> cases h
      rfl
    · split at h <;> cases h
      rfl
    · cases h

theorem Wrapper.run_sound {ok : Wrapper → WrapLabel → Prop} {now : Nat}
    (hrun : Steps (Wrapper.step c) ok (Wrapper.init c now) w) : Sound c w.pool :=
  hrun.invariant (P := fun w ↦ Sound c w.pool) (fun w e w' h _ hst ↦ by
    rcases Wrapper.step_cases hst with ⟨e', hpool, -⟩ | ⟨-, hsame⟩
    · exact h.step hpool
    · rwa [hsame]) (.init now)

/-- Where everything has been joined, no run goes back on it. -/
theorem Wrapper.settled_run {ok : Wrapper → WrapLabel → Prop} (hs : Sound c w.pool)
    (hset : w.pool.ctl.Settled c) (hon : Steps (Wrapper.step c) ok w w') :
    w'.pool.ctl.Settled c ∧ ∀ i, (w'.pool.ctl.w i).events = (w.pool.ctl.w i).events ∧
      (w'.pool.ctl.w i).spawned = (w.pool.ctl.w i).spawned := by
  have hend := hon.invariant (P := fun u ↦ Sound c u.pool ∧ u.pool.ctl.Settled c ∧
    ∀ i, (u.pool.ctl.w i).events = (w.pool.ctl.w i).events ∧
      (u.pool.ctl.w i).spawned = (w.pool.ctl.w i).spawned) (fun u e u' h _ hst ↦ by
    obtain ⟨hs, hset, hkept⟩ := h
    rcases Wrapper.step_cases hst with ⟨e', hpool, -⟩ | ⟨-, hsame⟩
    · obtain ⟨hset', hkept'⟩ := hs.settled_step hset hpool
      exact ⟨hs.step hpool, hset', fun i ↦
        ⟨(hkept' i).1.trans (hkept i).1, (hkept' i).2.trans (hkept i).2⟩⟩
    · rw [hsame]
      exact ⟨hs, hset, hkept⟩) ⟨hs, hset, fun _ ↦ ⟨rfl, rfl⟩⟩
  exact hend.2

theorem Wrapper.freed_settled {now : Nat}
    (hrun : Steps (Wrapper.step c) (FreesJoined c) (Wrapper.init c now) w) :
    w.drop = .freed → w.pool.ctl.Settled c := by
  refine hrun.invariant_under (P := fun w ↦ w.drop = .freed → w.pool.ctl.Settled c)
    (fun _ ht ↦ Wrapper.run_sound ht) (fun w e w' hs _ h hok hst hfreed ↦ ?_) nofun
  rcases Wrapper.step_cases hst with ⟨e', hpool, hbefore⟩ | ⟨rfl, hsame⟩
  · exact (hs.settled_step (h (hbefore hfreed)) hpool).1
  · rw [hsame]
    exact hok

/-- Up to its end the shutdown of `drop` is the only one, and nobody destroys the pool. -/
theorem Wrapper.run_outside {ok : Wrapper → WrapLabel → Prop} {now : Nat}
    (hrun : Steps (Wrapper.step c) ok (Wrapper.init c now) w) :
    (w.drop = .inUse ∨ ∃ n, w.drop = .shutdown n) →
      Steps (Pool.step c) (Outside fun _ ↦ True) (Pool.init c now) w.pool := by
  refine hrun.invariant (P := fun w ↦ (w.drop = .inUse ∨ ∃ n, w.drop = .shutdown n) →
    Steps (Pool.step c) (Outside fun _ ↦ True) (Pool.init c now) w.pool)
    (fun w e w' h _ hst hdrop ↦ ?_) (fun _ ↦ Steps.refl _)
  cases e with
  | pool e =>
    simp only [Wrapper.step] at hst
    split at hst
    · rename_i hadmits
      obtain ⟨s, hs, rfl⟩ := Option.map_eq_some_iff.mp hst
      refine (h hdrop).tail ?_ hs
      cases e with
      | shutdown n tls | destroy n => cases hadmits
      | _ => trivial
    · cases hst
  | shutdown n =>
    simp only [Wrapper.step] at hst
    split at hst
    · rename_i huse
      obtain ⟨s, hs, rfl⟩ := Option.map_eq_some_iff.mp hst
      exact (h (Or.inl huse)).tail (a := .shutdown n false) (fun _ ↦ rfl) hs
    · cases hst
  | nested i k =>
    simp only [Wrapper.step] at hst
    split at hst
    · obtain ⟨s, hs, rfl⟩ := Option.map_eq_some_iff.mp hst
      rcases hdrop with hdrop | ⟨n, hdrop⟩ <;> cases hdrop
    · cases hst
  | destroy n =>
    simp only [Wrapper.step] at hst
    split at hst
    · split at hst
      · obtain ⟨s, hs, rfl⟩ := Option.map_eq_some_iff.mp hst
        rcases hdrop with hdrop | ⟨n, hdrop⟩ <;> cases hdrop
      · cases hst
    · cases hst
  | free =>
    simp only [Wrapper.step] at hst
    split at hst
    · split at hst <;> cases hst
      rcases hdrop with hdrop | ⟨n, hdrop⟩ <;> cases hdrop
    · split at hst <;> cases hst
      rcases hdrop with hdrop | ⟨n, hdrop⟩ <;> cases hdrop
    · cases hst

/-- A shutdown that returned 0 has joined everything. -/
theorem Wrapper.settled_of_zero {ok : Wrapper → WrapLabel → Prop} {now n : Nat}
    (hrun : Steps (Wrapper.step c) ok (Wrapper.init c now) w) (hdrop : w.drop = .shutdown n)
    (hzero : (w.pool.thr (.api n)).pc = .shut (.done 0)) : w.pool.ctl.Settled c := by
  have hout := Wrapper.run_outside hrun (Or.inr ⟨n, hdrop⟩)
  have hd : w.pool.Decided (fun _ ↦ True) False := .run (fun _ _ h ↦ h) (by simp) hout
  obtain ⟨hstop, hclean, -⟩ := (hd.calls n _ hzero).resolve_right fun ⟨hno, _⟩ ↦ hno trivial
  exact ((Wrapper.run_sound hrun).custody.stopped hstop).resolve_left (by rw [hclean rfl]; decide)

/-- **Teardown.**  In every run in which `drop` frees the context only when the supervisor and all
workers are marked as joined, all threads of the workers have returned once it has been freed, and
from then on no thread is created and no callback begins or returns.  They are so marked in every
run in which the shutdown, whose result `drop` ignores, returns 0. -/
theorem context_outlives {now : Nat}
    (hrun : Steps (Wrapper.step c) (FreesJoined c) (Wrapper.init c now) w) :
    (w.drop = .freed →
      (∀ i < c.nWorkers, ∀ k < (w.pool.ctl.w i).spawned,
        (w.pool.thr (.worker i k)).pc = .worker .returned) ∧
      ∀ w', Steps (Wrapper.step c) anyStep w w' → ∀ i,
        (w'.pool.ctl.w i).events = (w.pool.ctl.w i).events ∧
          (w'.pool.ctl.w i).spawned = (w.pool.ctl.w i).spawned) ∧
    ∀ n, w.drop = .shutdown n → (w.pool.thr (.api n)).pc = .shut (.done 0) →
      ∀ w', Steps (Wrapper.step c) anyStep w w' → w'.pool.ctl.Settled c := by
  have hs := Wrapper.run_sound hrun
  refine ⟨fun hfreed ↦ ?_, fun n hdrop hzero w' hon ↦ ?_⟩
  · have hset := Wrapper.freed_settled hrun hfreed
    refine ⟨fun i hi k hk ↦ ?_, fun w' hon ↦ (Wrapper.settled_run hs hset hon).2⟩
    have hhome := hs.seated.runs (.worker i k)
    cases hpc : (w.pool.thr (.worker i k)).pc with
    | worker p => rw [hs.worker_done hset hi hk hpc]
    | _ =>
      rw [hpc] at hhome
      cases hhome
  · exact (Wrapper.settled_run hs (Wrapper.settled_of_zero hrun hdrop hzero) hon).1

end Run

/-- A pool is dropped while its worker is in a callback and has another frame queued; both callbacks
return in time. -/
def busyDrop : List WrapLabel :=
  (submits 0 0 ++ submits 1 0 ++ turns (.worker 0 0) 14).map .pool ++
    .shutdown 2 :: (turns (.api 2) 24 ++ .step (.worker 0 0) (.rc 0) :: turns (.worker 0 0) 14 ++
      .step (.worker 0 0) (.rc 0) :: turns (.worker 0 0) 10 ++ turns (.api 2) 6 ++
      turns (.helper 0) 2 ++ turns (.api 2) 21).map .pool ++
    .destroy 3 :: (turns (.api 3) 15).map .pool ++ [.free]

/-- Both frames have been processed when the context is freed, and no callback comes after. -/
theorem context_outlives_busyDrop : ∃ w : Wrapper,
    Steps (Wrapper.step .small) (FreesJoined .small) (Wrapper.init .small 0) w ∧ w.drop = .freed ∧
    (w.pool.thr (.worker 0 0)).pc = .worker .returned ∧
    ∀ w', Steps (Wrapper.step .small) anyStep w w' →
      (w'.pool.ctl.w 0).events = [.started 0, .returned 0 0, .started 1, .returned 1 0] := by
  have hrun : (exec (guarded (Wrapper.step .small) (FreesJoined .small)) (Wrapper.init .small 0)
      busyDrop).any (fun w ↦ decide (w.drop = .freed ∧ (w.pool.ctl.w 0).spawned = 1 ∧
        (w.pool.ctl.w 0).events = [.started 0, .returned 0 0, .started 1, .returned 1 0])) = true := by
    decide +kernel
  obtain ⟨w, hexec, hend⟩ := exec_any hrun
  obtain ⟨hfreed, hone, hevents⟩ := of_decide_eq_true hend
  have hsteps := exec_guarded_steps hexec
  obtain ⟨hreturned, hlater⟩ := (context_outlives hsteps).1 hfreed
  exact ⟨w, hsteps, hfreed, hreturned 0 (by decide) 0 (by rw [hone]; decide),
    fun w' hon ↦ (hlater w' hon 0).1.trans hevents⟩

/-- A pool is dropped while its worker is in a callback, which outlasts the deadline, and has another
frame queued. -/
def lateDrop : List WrapLabel :=
  (submits 0 0 ++ submits 1 0 ++ turns (.worker 0 0) 14).map .pool ++
    .shutdown 2 :: (turns (.api 2) 24 ++ .tick 10000000 :: turns (.api 2) 30).map .pool ++
    .destroy 3 :: (turns (.api 3) 7).map .pool ++ [.free]

/-- The callback is still in the code of the freed context, and the next one begins there. -/
theorem context_used_freed : ∃ w w' : Wrapper,
    exec (Wrapper.step .small) (Wrapper.init .small 0) lateDrop = some w ∧ w.drop = .freed ∧
    (w.pool.thr (.api 2)).pc = .shut (.done 1) ∧ (w.pool.thr (.api 3)).pc = .destroy .leaked ∧
    (w.pool.thr (.worker 0 0)).pc = .worker (.process 0 0 .out) ∧
    exec (Wrapper.step .small) w
      ((.step (.worker 0 0) (.rc 0) :: turns (.worker 0 0) 18).map .pool) = some w' ∧
    (w'.pool.ctl.w 0).events = (w.pool.ctl.w 0).events ++ [.returned 0 0, .started 1] := by
  have hrun : (exec (Wrapper.step .small) (Wrapper.init .small 0) lateDrop).any (fun w ↦
      decide (w.drop = .freed ∧ (w.pool.thr (.api 2)).pc = .shut (.done 1) ∧
        (w.pool.thr (.api 3)).pc = .destroy .leaked ∧
        (w.pool.thr (.worker 0 0)).pc = .worker (.process 0 0 .out)) &&
      (exec (Wrapper.step .small) w
        ((.step (.worker 0 0) (.rc 0) :: turns (.worker 0 0) 18).map .pool)).any fun w' ↦
          decide ((w'.pool.ctl.w 0).events =
            (w.pool.ctl.w 0).events ++ [.returned 0 0, .started 1])) = true := by decide +kernel
  obtain ⟨w, hw, hP⟩ := exec_any hrun
  rw [Bool.and_eq_true] at hP
  obtain ⟨w', hw', hgrown⟩ := exec_any hP.2
  obtain ⟨hfreed, hone, hleaked, hinside⟩ := of_decide_eq_true hP.1
  exact ⟨w, w', hw, hfreed, hone, hleaked, hinside, hw', of_decide_eq_true hgrown⟩

end Awp
