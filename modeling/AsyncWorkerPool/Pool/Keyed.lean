import AsyncWorkerPool.Pool.Stranded
import AsyncWorkerPool.Foundation.Fair

/-!
# Keyed — a keyed submission that cannot succeed

`awp_submit_keyed` goes round its loop on every code of `awp_claim_frame` but 0 and -1.  A pool that
has stopped admitting answers with another one each time, and so does a caller inside a callback.
-/

open Foundation

namespace Awp

/-- The call comes back with an error that `awp_claim_frame` reports, if only it can go on. -/
def Config.ComesBack (c : Config) (s : Pool) (n : Nat) : Prop :=
  Eventually (Pool.step c) (fun e ↦ ∃ x, e = .step (.api n) x) s fun t ↦
    ∃ rc, (t.thr (.api n)).pc = .api (.done rc none) ∧ (rc = einval ∨ rc = edeadlk)

/-! ## Admission tests that fail for good -/

section Refusal

variable {c : Config} {s s' : Pool} {m m' : Ctl} {l : Loc Nat Nat} {x : Choice} {k : Cmd}

theorem DestroyPc.next_started {d : Dat} {me : Agent} {p p' : DestroyPc}
    (hn : p.next c m d me l x = some (m', p', k)) (h : m.destroyStarted = true) :
    m'.destroyStarted = true := by
  cases p with
  | shut q =>
    by_cases hq : ∃ rc, q = .done rc
    · obtain ⟨rc, rfl⟩ := hq
      obtain ⟨rfl, rfl, rfl⟩ := outcome_inj hn
      exact h
    · rw [DestroyPc.next_shut (fun rc hrc ↦ hq ⟨rc, hrc⟩), Option.map_eq_some_iff] at hn
      obtain ⟨⟨m₁, q', k₁⟩, hn, he⟩ := hn
      cases he
      have hf := congrArg Ctl.destroyStarted (ShutPc.next_frame hn).1
      exact hf.trans h
  | lock | relock =>
    simp only [DestroyPc.next, Option.map_eq_some_iff, Prod.mk.injEq] at hn
    obtain ⟨m₁, hm, rfl, -, -⟩ := hn
    rw [(Ctl.lockLife_eq hm).2]
    exact h
  | cas | waiters | blocked ticket | ckWorker i | joined i =>
    simp only [DestroyPc.next] at hn
    split at hn <;> cases hn <;> exact h
  | released | leaked | refused => cases hn
  | _ =>
    obtain ⟨rfl, rfl, rfl⟩ := outcome_inj hn
    exact h

theorem Pool.step_started (hs : Seated c s) {e : Label} (hst : s.step c e = some s')
    (h : s.ctl.destroyStarted = true) : s'.ctl.destroyStarted = true := by
  cases Pool.step_act hs hst with
  | tick | call | shutdown | destroyed | access | api => exact h
  | shut n x hw hp hn hk =>
    have hf := congrArg Ctl.destroyStarted (ShutPc.next_frame hn).1
    exact hf.trans h
  | destroy n x hp hn hfrom hto hframe hk => exact DestroyPc.next_started hn h
  | worker i j x hi hj hp hn hk =>
    have hf := congrArg Ctl.destroyStarted (WorkerPc.next_frame hn).1.1
    exact hf.trans h
  | sup x he hp hn hk =>
    have hf := congrArg Ctl.destroyStarted (SupPc.next_frame hn).1
    exact hf.trans h
  | helper j x hh hp hn hk =>
    have hf := congrArg Ctl.destroyStarted (HelperPc.next_frame hn)
    exact hf.trans h

/-- **Step lemma.** A test that fails fails for the rest of the run. -/
theorem Gate.step_shut {g : Gate} (hs : Seated c s) {e : Label} (hst : s.step c e = some s')
    (h : g.isOpen s.ctl = false) : g.isOpen s'.ctl = false := by
  cases g with
  | lifecycle =>
    simp only [Gate.isOpen, decide_eq_false_iff_not] at h ⊢
    exact fun hrun ↦ h (Pool.step_running hs hst hrun)
  | quarantined =>
    simp only [Gate.isOpen, Bool.not_eq_false'] at h ⊢
    exact (Pool.step_onward hs hst).quarantined h
  | destroyStarted =>
    simp only [Gate.isOpen, Bool.not_eq_false'] at h ⊢
    exact Pool.step_started hs hst h

end Refusal

/-! ## The loop -/

/-- Test `g` is made at `g'` or after it. -/
def Gate.ahead (g : Gate) : Gate → Bool
  | .lifecycle => true
  | .quarantined => g ≠ .lifecycle
  | .destroyStarted => g = .destroyStarted

/-- Where a keyed submission goes round that is turned away: by test `g`, or by `awp_claim_frame`
itself because the caller is inside a callback (`none`). -/
def ApiPc.Circles (r : Option Gate) : ApiPc → Prop
  | .retry j | .waitSpace j => (∃ a, j.kind = .keyed a) ∧ (r = none → j.tls = true)
  | .claimEnter j => (∃ a, j.kind = .keyed a) ∧ r ≠ none
  | .gate j g' => (∃ a, j.kind = .keyed a) ∧ ∃ g, r = some g ∧ g.ahead g' = true
  | .leave j rc _ => (∃ a, j.kind = .keyed a) ∧ r ≠ none ∧ rc = einval
  | _ => False

/-- Whose call it is. -/
def ApiPc.Serves (kind : Kind) (tls : Bool) : ApiPc → Prop
  | .retry j | .claimEnter j | .gate j _ | .reserve j | .waitSpace j | .drop j | .activate j _
  | .fill j _ _ | .claimed j _ | .publish j _ | .submitted j _ | .deactivate j _ _ | .leave j _ _ =>
    j.kind = kind ∧ j.tls = tls
  | .done _ _ => True
  | _ => False

section Loop

variable {c : Config} {m : Ctl} {d d' : Dat} {l : Loc Nat Nat} {x : Choice} {k : Cmd}
  {p p' : ApiPc} {r : Option Gate}

theorem Gate.ahead_next {g g' : Gate} (h : g.ahead g' = true) (hshut : g.isOpen m = false)
    (hopen : g'.isOpen m = true) : ∃ g₁, g'.next = some g₁ ∧ g.ahead g₁ = true := by
  have hne : g' ≠ g := by
    rintro rfl
    rw [hshut] at hopen
    cases hopen
  cases g' <;> cases g <;>
    first | exact absurd rfl hne | exact ⟨_, rfl, rfl⟩ | cases h

theorem Job.again_circles {j : Job} (hkind : ∃ a, j.kind = .keyed a) (htls : r = none → j.tls = true) :
    (j.again .retry).Circles r := by
  rw [Job.again]
  split <;> exact ⟨hkind, htls⟩

/-- Every way out of the loop is barred. -/
theorem ApiPc.Circles.next (h : p.Circles r) (hr : ∀ g, r = some g → g.isOpen m = false)
    (hn : p.next c m d l x = some (d', p', k)) : p'.Circles r := by
  cases p with
  | retry j =>
    obtain ⟨hkind, htls⟩ := h
    obtain ⟨rfl, rfl, rfl⟩ := outcome_inj hn
    cases htls' : j.tls with
    | true => exact Job.again_circles hkind htls
    | false =>
      refine ⟨hkind, fun hnone ↦ ?_⟩
      rw [htls hnone] at htls'
      cases htls'
  | claimEnter j =>
    obtain ⟨hkind, hne⟩ := h
    obtain ⟨g, rfl⟩ := Option.ne_none_iff_exists'.mp hne
    obtain ⟨rfl, rfl, rfl⟩ := outcome_inj hn
    exact ⟨hkind, g, rfl, rfl⟩
  | gate j g' =>
    obtain ⟨hkind, g, rfl, hahead⟩ := h
    obtain ⟨rfl, rfl, rfl⟩ := outcome_inj hn
    split
    · rename_i hopen
      obtain ⟨g₁, hnext, hahead'⟩ := Gate.ahead_next hahead (hr g rfl) hopen
      simp only [hnext]
      exact ⟨hkind, g, rfl, hahead'⟩
    · obtain ⟨a, ha⟩ := hkind
      rw [Job.reject, ha]
      exact ⟨⟨a, ha⟩, by simp, rfl⟩
  | leave j rc slot =>
    obtain ⟨⟨a, ha⟩, hne, rfl⟩ := h
    obtain ⟨rfl, rfl, rfl⟩ := outcome_inj hn
    simp only [Job.return, ha]
    rw [if_neg (by decide)]
    exact Job.again_circles ⟨a, ha⟩ fun hnone ↦ absurd hnone hne
  | waitSpace j =>
    obtain ⟨⟨a, ha⟩, htls⟩ := h
    cases l with
    | idle =>
      obtain ⟨rfl, rfl, rfl⟩ := outcome_inj hn
      exact ⟨⟨a, ha⟩, htls⟩
    | ret v =>
      obtain ⟨rfl, rfl, rfl⟩ := outcome_inj hn
      simp only [ha]
      exact ⟨⟨a, rfl⟩, htls⟩
    | _ => cases hn
  | _ => cases h

theorem Job.again_serves {j : Job} {loop : Job → ApiPc} {kind : Kind} {tls : Bool}
    (h : j.kind = kind ∧ j.tls = tls)
    (hloop : ∀ j : Job, j.kind = kind ∧ j.tls = tls → (loop j).Serves kind tls) :
    (j.again loop).Serves kind tls := by
  rw [Job.again]
  split
  · exact hloop _ h
  · exact h

theorem Job.refused_serves {j : Job} {v : Ret Nat Nat} {kind : Kind} {tls : Bool}
    (h : j.kind = kind ∧ j.tls = tls) : (j.refused v).Serves kind tls := by
  simp only [Job.refused]
  cases j.kind <;> cases v <;> first | exact h | exact Job.again_serves h fun _ ↦ id

theorem Job.return_serves {j : Job} {rc : Int} {slot : Option (Nat × Nat)} {kind : Kind} {tls : Bool}
    (h : j.kind = kind ∧ j.tls = tls) : (j.return rc slot).Serves kind tls := by
  rw [Job.return]
  split
  · trivial
  · trivial
  · split
    · trivial
    · exact Job.again_serves h fun _ ↦ id

theorem ApiPc.Serves.next {kind : Kind} {tls : Bool} (h : p.Serves kind tls)
    (hn : p.next c m d l x = some (d', p', k)) : p'.Serves kind tls := by
  cases p with
  | idle | submitEnter | submitActive | submitGate | readEnter | readDropped | readAbandoned
  | readLeave | read => cases h
  | done => cases hn
  | reserve j =>
    cases l with
    | ret v =>
      obtain ⟨rfl, rfl, rfl⟩ := outcome_inj hn
      exact Job.refused_serves h
    | held pos =>
      obtain ⟨rfl, rfl, rfl⟩ := outcome_inj hn
      split <;> exact h
    | idle =>
      obtain ⟨rfl, rfl, rfl⟩ := outcome_inj hn
      exact h
    | _ => cases hn
  | waitSpace j =>
    cases l with
    | ret v =>
      obtain ⟨rfl, rfl, rfl⟩ := outcome_inj hn
      split <;> exact h
    | idle =>
      obtain ⟨rfl, rfl, rfl⟩ := outcome_inj hn
      exact h
    | _ => cases hn
  | publish j pos =>
    cases l <;> cases hn <;> exact h
  | claimed j pos =>
    cases x <;> cases hn <;> exact h
  | fill j pos ws =>
    cases ws with
    | nil =>
      obtain ⟨rfl, rfl, rfl⟩ := outcome_inj hn
      split <;> exact h
    | cons f ws =>
      obtain ⟨rfl, rfl, rfl⟩ := outcome_inj hn
      exact h
  | leave j rc slot =>
    obtain ⟨rfl, rfl, rfl⟩ := outcome_inj hn
    exact Job.return_serves h
  | retry j =>
    obtain ⟨rfl, rfl, rfl⟩ := outcome_inj hn
    split
    · exact Job.again_serves h fun _ ↦ id
    · exact h
  | gate j g =>
    obtain ⟨rfl, rfl, rfl⟩ := outcome_inj hn
    split
    · split <;> exact h
    · rw [Job.reject]
      split <;> exact h
  | _ =>
    obtain ⟨rfl, rfl, rfl⟩ := outcome_inj hn
    exact h

end Loop

/-! ## The call -/

section Call

variable {c : Config} {s s' t : Pool} {n : Nat} {p : ApiPc}

/-- A call moves by its own steps only. -/
theorem Seated.api_step (hs : Seated c s) {e : Label} (hst : s.step c e = some s')
    (hp : (s.thr (.api n)).pc = .api p) (hidle : p ≠ .idle) :
    ∃ p', (s'.thr (.api n)).pc = .api p' ∧ (p' = p ∨
      ∃ x d' k, p.next c s.ctl s.dat (s.thr (.api n)).loc x = some (d', p', k)) := by
  have hstill : s'.thr (.api n) = s.thr (.api n) → ∃ p', (s'.thr (.api n)).pc = .api p' ∧ (p' = p ∨
      ∃ x d' k, p.next c s.ctl s.dat (s.thr (.api n)).loc x = some (d', p', k)) :=
    fun hthr ↦ ⟨p, by rw [hthr, hp], Or.inl rfl⟩
  -- somebody who starts a call, or is in a shutdown or a destroy, is another party
  have hother : ∀ {n' : Nat} {q : Pc}, (s.thr (.api n')).pc = q → q ≠ .api p →
      Agent.api n ≠ .api n' := by
    rintro n' q hq hne ⟨⟩
    exact hne (hq.symm.trans hp)
  cases Pool.step_act hs hst with
  | tick t => exact hstill rfl
  | call n' pool f hid | shutdown n' tls hid | destroyed n' hid =>
    exact hstill (Pool.moved_of_ne (hother hid (by simpa using Ne.symm hidle)))
  | access a x spurious r l hact hstep => exact ⟨p, (Pool.accessed_pc).trans hp, Or.inl rfl⟩
  | api n' x hp' hn hk =>
    by_cases hne : Agent.api n = .api n'
    · cases hne
      rw [hp, Pc.api.injEq] at hp'
      subst hp'
      exact ⟨_, by rw [Pool.moved_self], Or.inr ⟨x, _, _, hn⟩⟩
    · exact hstill (Pool.moved_of_ne hne)
  | shut n' x hw hp' hn hk =>
    exact hstill (Pool.moved_of_ne (hother hp' (by cases hw <;> simp)))
  | destroy n' x hp' => exact hstill (Pool.moved_of_ne (hother hp' (by simp)))
  | worker | sup | helper => exact hstill (Pool.moved_of_ne (by simp))

/-- **Run lemma.** Turned away once at the head of its loop, the call never gets out of it. -/
theorem Pool.keyed_circles {r : Option Gate} (hs : Sound c s)
    (hp : (s.thr (.api n)).pc = .api p) (hcircles : p.Circles r)
    (hr : ∀ g, r = some g → g.isOpen s.ctl = false) (hrun : Steps (Pool.step c) anyStep s t) :
    ∃ p', (t.thr (.api n)).pc = .api p' ∧ p'.Circles r := by
  refine (hrun.invariant (P := fun t ↦ Sound c t ∧ (∀ g, r = some g → g.isOpen t.ctl = false) ∧
    ∃ p', (t.thr (.api n)).pc = .api p' ∧ p'.Circles r) ?_ ⟨hs, hr, p, hp, hcircles⟩).2.2
  rintro u e u' ⟨hu, hru, q, hq, hcq⟩ - hst
  refine ⟨hu.step hst, fun g hg ↦ Gate.step_shut hu.seated hst (hru g hg), ?_⟩
  obtain ⟨q', hq', rfl | ⟨x, d', k, hn⟩⟩ := hu.seated.api_step hst hq (by rintro rfl; exact hcq)
  · exact ⟨q', hq', hcq⟩
  · exact ⟨q', hq', hcq.next hru hn⟩

/-- The call keeps its kind. -/
theorem Pool.keyed_serves {kind : Kind} {tls : Bool} (hs : Sound c s)
    (hp : (s.thr (.api n)).pc = .api p) (hserves : p.Serves kind tls)
    (hrun : Steps (Pool.step c) anyStep s t) :
    Sound c t ∧ ∃ p', (t.thr (.api n)).pc = .api p' ∧ p'.Serves kind tls := by
  refine hrun.invariant (P := fun t ↦ Sound c t ∧
    ∃ p', (t.thr (.api n)).pc = .api p' ∧ p'.Serves kind tls) ?_ ⟨hs, p, hp, hserves⟩
  rintro u e u' ⟨hu, q, hq, hsq⟩ - hst
  refine ⟨hu.step hst, ?_⟩
  obtain ⟨q', hq', rfl | ⟨x, d', k, hn⟩⟩ := hu.seated.api_step hst hq (by rintro rfl; exact hsq)
  · exact ⟨q', hq', hsq⟩
  · exact ⟨q', hq', hsq.next hn⟩

/-- What a call has returned stays. -/
theorem Pool.done_stays {rc : Int} {slot : Option (Nat × Nat)} (hs : Sound c s)
    (hp : (s.thr (.api n)).pc = .api (.done rc slot)) (hrun : Steps (Pool.step c) anyStep s t) :
    (t.thr (.api n)).pc = .api (.done rc slot) := by
  refine (hrun.invariant (P := fun t ↦ Sound c t ∧ (t.thr (.api n)).pc = .api (.done rc slot)) ?_
    ⟨hs, hp⟩).2
  rintro u e u' ⟨hu, hq⟩ - hst
  obtain ⟨q', hq', rfl | ⟨x, d', k, hn⟩⟩ := hu.seated.api_step hst hq (by simp)
  · exact ⟨hu.step hst, hq'⟩
  · cases hn

/-- It hangs. -/
theorem keyed_hangs {a : Args} {j : Job} (hs : Sound c s)
    (hp : (s.thr (.api n)).pc = .api (.retry j)) (hkind : j.kind = .keyed a)
    (hrefused : j.tls = true ∨ ∃ g : Gate, g.isOpen s.ctl = false) : ¬ c.ComesBack s n := by
  have hcircles : ∃ r, (ApiPc.retry j).Circles r ∧ ∀ g, r = some g → g.isOpen s.ctl = false := by
    rcases hrefused with htls | ⟨g, hg⟩
    · exact ⟨none, ⟨⟨a, hkind⟩, fun _ ↦ htls⟩, nofun⟩
    · refine ⟨some g, ⟨⟨a, hkind⟩, nofun⟩, ?_⟩
      rintro g' ⟨⟩
      exact hg
  obtain ⟨r, hcircles, hr⟩ := hcircles
  have hgo : ∀ s : Pool, ∃ e t, s.step c e = some t := fun s ↦ ⟨.tick 0, _, rfl⟩
  intro hback
  obtain ⟨t, hrun, rc, hdone, -⟩ := Eventually.exists_run hgo hback
  obtain ⟨p', hp', hc⟩ := Pool.keyed_circles hs hp hcircles hr hrun
  rw [hdone, Pc.api.injEq] at hp'
  subst hp'
  exact hc

/-- **A keyed submission that cannot succeed.**  A call of `awp_submit_keyed` has run for any while,
and stands at the head of its loop if it got that far, when it is inside a callback or one of the
tests of `awp_claim_frame` fails, as it will from then on (`Gate.step_shut`).  It comes back with
that error exactly when its handle is `NULL`. -/
theorem keyed_comes_back {now : Nat} {s₀ s₁ : Pool} {pool tls : Bool} {key : UInt64} {a : Args}
    (hrun₀ : Steps (Pool.step c) anyStep (Pool.init c now) s₀)
    (hcall : s₀.step c (.call n pool (.keyed tls key a)) = some s₁)
    (hrun₁ : Steps (Pool.step c) anyStep s₁ s)
    (hhead : pool = true → ∃ j, (s.thr (.api n)).pc = .api (.retry j))
    (hrefused : tls = true ∨ ∃ g : Gate, g.isOpen s.ctl = false) :
    c.ComesBack s n ↔ pool = false := by
  have hs₀ := Sound.run hrun₀
  have hs₁ := hs₀.step hcall
  have hstart : (s₁.thr (.api n)).pc = .api ((ApiCall.keyed tls key a).start c pool) := by
    cases Pool.step_act hs₀.seated hcall with
    | call n pool f hidle => rw [Pool.moved_self]
  cases pool with
  | false =>
    have hdone := Pool.done_stays hs₁ hstart hrun₁
    exact iff_of_true (.of_now ⟨einval, hdone, Or.inl rfl⟩) rfl
  | true =>
    obtain ⟨j, hj⟩ := hhead rfl
    have hj₁ : ((ApiCall.keyed tls key a).start c true).Serves (.keyed a) tls := ⟨rfl, rfl⟩
    obtain ⟨hs, p', hp', hserves⟩ := Pool.keyed_serves hs₁ hstart hj₁ hrun₁
    rw [hj, Pc.api.injEq] at hp'
    subst hp'
    obtain ⟨hkind, rfl⟩ := hserves
    exact iff_of_false (keyed_hangs hs hj hkind hrefused) (by decide)

end Call

/-- The pool has been shut down when party 1 submits by key. -/
def keyedAfterStop : List Label :=
  .shutdown 0 false :: turns (.api 0) 24 ++ turns (.worker 0 0) 10 ++ turns (.api 0) 6 ++
    turns (.helper 0) 2 ++ turns (.api 0) 21 ++ [.call 1 true (.keyed false 0 (.bare 0))]

/-- It comes round to its second attempt. -/
theorem keyed_hangs_afterStop : ∃ s, Steps (Pool.step .small) anyStep (Pool.init .small 0) s ∧
    s.ctl.lifecycle = .stopped ∧ (∃ j, (s.thr (.api 1)).pc = .api (.retry j) ∧ j.spin = 1) ∧
    ¬ Config.ComesBack .small s 1 := by
  have hrun : (exec (Pool.step .small) (Pool.init .small 0)
      (keyedAfterStop ++ turns (.api 1) 4)).any (fun s ↦ decide (s.ctl.lifecycle = .stopped ∧
        (s.thr (.api 1)).pc = .api (.retry ⟨.keyed (.bare 0), 0, 1, false⟩))) = true := by
    decide +kernel
  obtain ⟨s, hs, hP⟩ := exec_any hrun
  obtain ⟨hstop, hpc⟩ := of_decide_eq_true hP
  have hshut : Gate.isOpen s.ctl .lifecycle = false := by simp [Gate.isOpen, hstop]
  exact ⟨s, exec_steps hs, hstop, ⟨_, hpc, rfl⟩,
    keyed_hangs (Sound.run (exec_steps hs)) hpc rfl (Or.inr ⟨_, hshut⟩)⟩

/-- A callback submits by key to its own pool. -/
theorem keyed_comes_back_inCallback : ∃ s₁,
    (Pool.init .small 0).step .small (.call 1 true (.keyed true 0 (.bare 0))) = some s₁ ∧
      ¬ Config.ComesBack .small s₁ 1 := by
  obtain ⟨s₁, h₁⟩ : ∃ s₁, (Pool.init .small 0).step .small
    (.call 1 true (.keyed true 0 (.bare 0))) = some s₁ := ⟨_, rfl⟩
  have hhead : true = true → ∃ j, (s₁.thr (.api 1)).pc = .api (.retry j) := fun _ ↦ by
    cases h₁
    exact ⟨_, rfl⟩
  refine ⟨s₁, h₁, fun hback ↦ ?_⟩
  cases (keyed_comes_back (.refl _) h₁ (.refl _) hhead (Or.inl rfl)).mp hback

end Awp
