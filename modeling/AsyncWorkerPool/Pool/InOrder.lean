import AsyncWorkerPool.Pool.Fifo
import AsyncWorkerPool.Pool.Intact

/-!
# InOrder — the frames of one key come to `process` in the order of submission

What a submission publishes at its position is what its arguments say (`Brings`), and what `process`
reads there is what was published, unless a later frame has been written over it (`Kept`).
-/

open Foundation

namespace Awp

section InOrder

variable {c : Config} {now : Nat} {s s₀ s₁ : Pool}

/-- What `awp_submit` publishes holds what its caller has asked for. -/
theorem Pool.Places.content {a : Args} {tls : Bool} {i p : Nat} (hr : a.Readable)
    (hrun : Steps (Pool.step c) anyStep (Pool.init c now) s₀)
    (hplace : s₀.Places c (.submit tls a) i p s₁) (hrun' : Steps (Pool.step c) anyStep s₁ s) :
    ∃ fr, s.dat.published i p = some fr ∧ fr.content = a.content := by
  obtain ⟨n, pool, t, hcall, hrun₁, hdone⟩ := hplace
  have hs₀ := Sound.run hrun
  have hs₁ : Sound c s₁ := Sound.run ((hrun.tail trivial hcall).trans hrun₁)
  have hstart : t.Bringing c (fun k ↦ a.check = 0 ∧ ∃ ns, k = .submit a.labelled ns)
      (·.content = a.content) n := by
    refine .start hs₀.seated hcall fun ring d ↦ ?_
    simp only [ApiCall.start]
    split
    · simp [ApiPc.Brings]
    · split
      · simp [ApiPc.Brings]
      · exact fun hcheck ns ↦ ⟨a.labelled_check.symm.trans hcheck, ns, rfl⟩
  have hstored : ∀ (j : Job) old (fr : Frame), (a.check = 0 ∧ ∃ ns, j.kind = .submit a.labelled ns) →
      fr.Like (Frame.fillAll old j.fills) → fr.content = a.content := by
    rintro j old fr ⟨hcheck, ns, hj⟩ hlike
    rw [hlike.content, Job.fills, hj]
    exact a.submitFills_content hr hcheck ns j.sh old
  obtain ⟨-, p', hp', hbring⟩ := hrun₁.invariant (P := fun s ↦ Sound c s ∧ s.Bringing c _ _ n)
    (fun _ _ _ hs _ hst ↦ ⟨hs.1.step hst, hs.2.step hs.1 (by simp) hstored hst⟩)
    ⟨hs₀.step hcall, hstart⟩
  rw [hdone, Pc.api.injEq] at hp'
  subst hp'
  exact (hrun'.invariant
    (P := fun s ↦ Sound c s ∧ Shows c s.ring s.dat (·.content = a.content) i p)
    (fun _ _ _ hs _ hst ↦ ⟨hs.1.step hst, hs.2.step hs.1 hst⟩) ⟨hs₁, hbring (i, p) rfl⟩).2.frame

/-- **Per-shard serial FIFO.**  Whatever supervisor, shutdown and producers do, the callbacks of a
shard never overlap and are for the positions 0, 1, 2, … in turn, with `on_error` once after each
failure.  In a run that writes no frame between its pop and the return of `process`, each call of
`process` reads all through what was published at its position, and so, for a submission, what the
caller has asked for; and of two calls on one shard, the later begun when the earlier had returned,
the frame of the later is processed when `process` has returned for that of the earlier.  Submissions
of one key are for one shard. -/
theorem shard_frames_fifo (hrun : Steps (Pool.step c) (Intact false c) (Pool.init c now) s) :
    (∀ i, ∃ ph, Serial c.onError (s.ctl.w i).events ph ∧
      started (s.ctl.w i).events = List.range ph.calls) ∧
    (∀ i k p slot nest, (s.thr (.worker i k)).pc = .worker (.process p slot nest) →
      s.dat.published i p = some (s.dat.slab i slot) ∧
      ∀ s₀ s₁ a tls, Steps (Pool.step c) anyStep (Pool.init c now) s₀ →
        s₀.Places c (.submit tls a) i p s₁ → Steps (Pool.step c) anyStep s₁ s → a.Readable →
        (s.dat.slab i slot).content = a.content) ∧
    (∀ s₀ s₁ s₂ s₃ f g k i p j q, Steps (Pool.step c) anyStep (Pool.init c now) s₀ →
      s₀.Places c f i p s₁ → Steps (Pool.step c) anyStep s₁ s₂ → s₂.Places c g j q s₃ →
      Steps (Pool.step c) anyStep s₃ s → f.shard c = some k → g.shard c = some k →
      i = k ∧ j = k ∧ ∀ pre post, (s.ctl.w k).events = pre ++ .started q :: post →
        ∃ rc, Event.returned p rc ∈ pre) ∧
    ∀ a b tls tls', a.sameKey b →
      (ApiCall.submit tls a).shard c = (ApiCall.submit tls' b).shard c := by
  obtain ⟨hserial, horder, hkey⟩ := shard_serial_fifo (hrun.mono fun _ _ _ ↦ trivial)
  refine ⟨hserial, fun i k p slot nest hpc ↦ ?_, horder, hkey⟩
  have hreads : (s.thr (.worker i k)).reads false = some (p, slot) := by
    rw [Thread.reads, hpc]
    rfl
  have hpub : s.dat.published i p = some (s.dat.slab i slot) :=
    (Kept.run hrun).hand i k (p, slot) hreads
  refine ⟨hpub, fun s₀ s₁ a tls h₀ hplace h₁ hr ↦ ?_⟩
  obtain ⟨fr, hfr, hcontent⟩ := hplace.content hr h₀ h₁
  rw [hpub, Option.some.injEq] at hfr
  rw [hfr, hcontent]

end InOrder

/-- A frame of one byte. -/
def Args.letter (b : UInt8) : Args := ⟨none, none, some [b], 1, 0⟩

theorem Args.letter_readable (b : UInt8) : (Args.letter b).Readable := by
  rintro bytes ⟨⟩
  exact le_rfl

/-- Party `n` submits such a frame to a shard with room. -/
def submitsLetter (n : Nat) (b : UInt8) : List Label :=
  .call n true (.submit false (.letter b)) :: turns (.api n) 31

/-- The callback returns, and the worker goes on to the next call of `process`. -/
def nextProcess : List Label := .step (.worker 0 0) (.rc 0) :: turns (.worker 0 0) 14

/-- Frames A and B go through a queue of two. -/
def afterTwo : List Label :=
  submitsLetter 0 65 ++ submitsLetter 1 66 ++ turns (.worker 0 0) 14 ++ nextProcess ++
    [.step (.worker 0 0) (.rc 0)]

/-- Frame C takes the slot of A after that, and `process` reads C. -/
theorem shard_frames_fifo_third : ∃ s : Pool,
    Steps (Pool.step .small) (Intact false .small) (Pool.init .small 0) s ∧
    started (s.ctl.w 0).events = [0, 1, 2] ∧
    (s.thr (.worker 0 0)).pc = .worker (.process 2 0 .out) ∧
    (s.dat.slab 0 0).content = (Args.letter 67).content := by
  have hrun : (exec (guarded (Pool.step .small) (Intact false .small)) (Pool.init .small 0)
      afterTwo).any (fun s ↦ (s.step .small (.call 2 true (.submit false (.letter 67)))).any fun t ↦
        (exec (guarded (Pool.step .small) (Intact false .small)) t (turns (.api 2) 31)).any fun u ↦
          decide ((u.thr (.api 2)).pc = .api (.done 0 (some (0, 2)))) &&
          (exec (guarded (Pool.step .small) (Intact false .small)) u (turns (.worker 0 0) 14)).any
            fun v ↦ decide (started (v.ctl.w 0).events = [0, 1, 2] ∧
              (v.thr (.worker 0 0)).pc = .worker (.process 2 0 .out))) = true := by
    decide +kernel
  obtain ⟨s, hs, hrest⟩ := exec_any hrun
  obtain ⟨t, hcall, hrest⟩ := (Option.any_eq_true _ _).mp hrest
  obtain ⟨u, hu, hrest⟩ := exec_any hrest
  obtain ⟨hdone, hrest⟩ := (Bool.and_eq_true _ _).mp hrest
  obtain ⟨v, hv, hend⟩ := exec_any hrest
  obtain ⟨hstarted, hpc⟩ := of_decide_eq_true hend
  have hs' := exec_guarded_steps hs
  have hu' := exec_guarded_steps hu
  have hv' := exec_guarded_steps hv
  have hall : Steps (Pool.step .small) (Intact false .small) (Pool.init .small 0) v :=
    ((hs'.tail (by simp [Intact, Pool.stores]) hcall).trans hu').trans hv'
  have hplace : s.Places .small (.submit false (.letter 67)) 0 2 u :=
    ⟨2, true, t, hcall, hu'.mono fun _ _ _ ↦ trivial, of_decide_eq_true hdone⟩
  exact ⟨v, hall, hstarted, hpc, ((shard_frames_fifo hall).2.1 0 0 2 0 .out hpc).2 s u _ _
    (hs'.mono fun _ _ _ ↦ trivial) hplace (hv'.mono fun _ _ _ ↦ trivial) (Args.letter_readable 67)⟩

/-- The worker has popped A when C takes its slot. -/
def popThenSubmit : List Label :=
  submitsLetter 0 65 ++ submitsLetter 1 66 ++ turns (.worker 0 0) 13 ++ submitsLetter 2 67 ++
    turns (.worker 0 0) 1

/-- Frames A, B and C of one key, submitted in this order, come to `process` as C, B, C. -/
theorem shard_frames_overwritten : ∃ s₀ s₁ s₂ : Pool,
    exec (Pool.step .small) (Pool.init .small 0) popThenSubmit = some s₀ ∧
    exec (Pool.step .small) s₀ nextProcess = some s₁ ∧
    exec (Pool.step .small) s₁ nextProcess = some s₂ ∧
    ((s₀.thr (.api 0)).pc = .api (.done 0 (some (0, 0))) ∧
      (s₀.thr (.api 1)).pc = .api (.done 0 (some (0, 1))) ∧
      (s₀.thr (.api 2)).pc = .api (.done 0 (some (0, 2)))) ∧
    ((s₀.thr (.worker 0 0)).pc = .worker (.process 0 0 .out) ∧
      (s₀.dat.slab 0 0).content = (Args.letter 67).content) ∧
    ((s₁.thr (.worker 0 0)).pc = .worker (.process 1 1 .out) ∧
      (s₁.dat.slab 0 1).content = (Args.letter 66).content) ∧
    ((s₂.thr (.worker 0 0)).pc = .worker (.process 2 0 .out) ∧
      (s₂.dat.slab 0 0).content = (Args.letter 67).content) := by
  have hrun : (exec (Pool.step .small) (Pool.init .small 0) popThenSubmit).any (fun s₀ ↦
      decide (((s₀.thr (.api 0)).pc = .api (.done 0 (some (0, 0))) ∧
          (s₀.thr (.api 1)).pc = .api (.done 0 (some (0, 1))) ∧
          (s₀.thr (.api 2)).pc = .api (.done 0 (some (0, 2)))) ∧
        (s₀.thr (.worker 0 0)).pc = .worker (.process 0 0 .out) ∧
        (s₀.dat.slab 0 0).content = (Args.letter 67).content) &&
      (exec (Pool.step .small) s₀ nextProcess).any fun s₁ ↦
        decide ((s₁.thr (.worker 0 0)).pc = .worker (.process 1 1 .out) ∧
          (s₁.dat.slab 0 1).content = (Args.letter 66).content) &&
        (exec (Pool.step .small) s₁ nextProcess).any fun s₂ ↦
          decide ((s₂.thr (.worker 0 0)).pc = .worker (.process 2 0 .out) ∧
            (s₂.dat.slab 0 0).content = (Args.letter 67).content)) = true := by
    decide +kernel
  obtain ⟨s₀, h₀, hrest⟩ := exec_any hrun
  obtain ⟨hthree, hrest⟩ := (Bool.and_eq_true _ _).mp hrest
  obtain ⟨s₁, h₁, hrest⟩ := exec_any hrest
  obtain ⟨htwo, hrest⟩ := (Bool.and_eq_true _ _).mp hrest
  obtain ⟨s₂, h₂, hone⟩ := exec_any hrest
  obtain ⟨hdone, hthree⟩ := of_decide_eq_true hthree
  exact ⟨s₀, s₁, s₂, h₀, h₁, h₂, hdone, hthree, of_decide_eq_true htwo, of_decide_eq_true hone⟩

end Awp
