import AsyncWorkerPool.Pool.Era
import AsyncWorkerPool.Pool.Verdict

/-!
# Reclaim — `awp_pool_destroy` releases the storage when nobody is left

The owner calls `awp_pool_destroy` once, when all other calls have returned; claims may still be
out.  From then on the calls can only run out, so that `api_refs` cannot rise again once it has been
seen at zero, and a pool that has stopped without quarantine has collected all its threads.
-/

open Foundation

namespace Awp

/-- No call is in progress: the party has made none, or it has returned. -/
def Pc.rests : Pc → Bool
  | .api p => p.resting
  | .shut (.done _) => true
  | _ => false

/-- The owner of the handle destroys it once, after the other calls have returned, and nobody calls
anything after that.  Callbacks may call `awp_pool_destroy` at any time, and claims may be out. -/
def Owner (s : Pool) : Label → Prop
  | .destroy n => ∀ n', n' ≠ n → (s.thr (.api n')).pc.rests = true
  | .call _ _ _ | .shutdown _ _ => ∀ n p, (s.thr (.api n)).pc ≠ .destroy p
  | _ => True

/-- A call that can only run out: at most a claim, which its holder may still write and commit. -/
def ApiPc.closing : ApiPc → Bool
  | .idle | .done _ _ | .read _ | .claimed _ _ | .publish _ _ | .submitted _ _ => true
  | .deactivate _ rc _ | .leave _ rc _ => rc = 0
  | _ => false

def Pc.closing : Pc → Bool
  | .api p => p.closing
  | .shut (.done _) => true
  | _ => false

/-- `awp_pool_destroy` has read `quarantined` as 0. -/
def DestroyPc.settled : DestroyPc → Bool
  | .ckWorker _ | .ckActive | .ckRefs | .ckSup | .joined _ | .state _ | .release | .released => true
  | _ => false

/-- It has read `api_refs` as 0, too. -/
def DestroyPc.drained : DestroyPc → Bool
  | .ckSup | .joined _ | .state _ | .release | .released => true
  | _ => false

section Own

variable {c : Config} {m m' : Ctl} {d d' : Dat} {l : Loc Nat Nat} {x : Choice} {k : Cmd}

theorem Pc.closing_of_rests {pc : Pc} (h : pc.rests = true) : pc.closing = true := by
  cases pc with
  | api p => cases p <;> first | rfl | cases h
  | shut p => cases p <;> first | rfl | cases h
  | _ => cases h

theorem ApiPc.closing_next {p p' : ApiPc} (h : p.closing = true)
    (hn : p.next c m d l x = some (d', p', k)) : p'.closing = true := by
  cases p with
  | claimed j pos => cases x <;> cases hn <;> rfl
  | publish j pos => cases l <;> cases hn <;> rfl
  | submitted j pos =>
    obtain ⟨rfl, rfl, rfl⟩ := outcome_inj hn
    rfl
  | deactivate j rc slot =>
    obtain ⟨rfl, rfl, rfl⟩ := outcome_inj hn
    exact h
  | leave j rc slot =>
    -- a commit returns whatever kind of call it belongs to
    have hrc : rc = 0 := of_decide_eq_true h
    obtain ⟨rfl, rfl, rfl⟩ := outcome_inj hn
    subst hrc
    rw [Job.return]
    cases j.kind <;> rfl
  | idle | done rc slot | read v => cases hn
  | _ => cases h

/-- A call that can only run out and holds no reference has run out. -/
theorem ApiPc.closing_stuck {p : ApiPc} (h : p.closing = true) (href : p.holdsRef = false) :
    p.next c m d l x = none := by
  cases p with
  | idle | done rc slot | read v => rfl
  | claimed | publish | submitted | deactivate | leave => cases href
  | _ => cases h

variable {me : Agent} {p p' : DestroyPc}

theorem DestroyPc.next_settled (hn : p.next c m d me l x = some (m', p', k))
    (hp' : p'.settled = true) :
    p.settled = true ∨ (p.stopped = true ∧ m.quarantined = false) := by
  cases p with
  | ckQuarantined =>
    obtain ⟨rfl, rfl, rfl⟩ := outcome_inj hn
    split at hp'
    · cases hp'
    · rename_i hq
      exact Or.inr ⟨rfl, by simpa using hq⟩
  | ckWorker | ckActive | ckRefs | ckSup | joined | state | release => exact Or.inl rfl
  | released | leaked | refused => cases hn
  | shut q =>
    rcases DestroyPc.next_frame hn with ⟨q, q', -, rfl, -⟩ | ⟨-, hfrom, -⟩
    · cases hp'
    · obtain ⟨rc, rfl⟩ := hfrom q rfl
      obtain ⟨rfl, rfl, rfl⟩ := outcome_inj hn
      cases hp'
  | lock | relock =>
    simp only [DestroyPc.next, Option.map_eq_some_iff, Prod.mk.injEq] at hn
    obtain ⟨m₁, -, -, rfl, -⟩ := hn
    cases hp'
  | cas | waiters | blocked =>
    simp only [DestroyPc.next] at hn
    split at hn <;> cases hn <;> cases hp'
  | lifeLoad =>
    obtain ⟨rfl, rfl, rfl⟩ := outcome_inj hn
    split at hp' <;> cases hp'
  | refs spins =>
    obtain ⟨rfl, rfl, rfl⟩ := outcome_inj hn
    split at hp'
    · split at hp' <;> cases hp'
    · cases hp'
  | _ =>
    obtain ⟨rfl, rfl, rfl⟩ := outcome_inj hn
    cases hp'

theorem DestroyPc.next_drained (hn : p.next c m d me l x = some (m', p', k))
    (hp' : p'.drained = true) : p.drained = true ∨ d.apiRefs ≤ 0 := by
  cases p with
  | ckRefs =>
    obtain ⟨rfl, rfl, rfl⟩ := outcome_inj hn
    split at hp'
    · cases hp'
    · rename_i hrefs
      exact Or.inr (not_lt.mp hrefs)
  | ckSup | joined | state | release => exact Or.inl rfl
  | released | leaked | refused => cases hn
  | shut q =>
    rcases DestroyPc.next_frame hn with ⟨q, q', -, rfl, -⟩ | ⟨-, hfrom, -⟩
    · cases hp'
    · obtain ⟨rc, rfl⟩ := hfrom q rfl
      obtain ⟨rfl, rfl, rfl⟩ := outcome_inj hn
      cases hp'
  | lock | relock =>
    simp only [DestroyPc.next, Option.map_eq_some_iff, Prod.mk.injEq] at hn
    obtain ⟨m₁, -, -, rfl, -⟩ := hn
    cases hp'
  | cas | waiters | blocked | ckWorker =>
    simp only [DestroyPc.next] at hn
    split at hn <;> cases hn <;> first | cases hp' | (split at hp' <;> cases hp')
  | lifeLoad | ckQuarantined | ckActive =>
    obtain ⟨rfl, rfl, rfl⟩ := outcome_inj hn
    split at hp' <;> cases hp'
  | refs spins =>
    obtain ⟨rfl, rfl, rfl⟩ := outcome_inj hn
    split at hp'
    · split at hp' <;> cases hp'
    · cases hp'
  | _ =>
    obtain ⟨rfl, rfl, rfl⟩ := outcome_inj hn
    cases hp'

/-- The storage is released in one place. -/
theorem DestroyPc.next_freed (hn : p.next c m d me l x = some (m', p', k))
    (hfrom : ∀ q, p = .shut q → ∃ rc, q = .done rc) (hfreed : m'.freed = true) :
    p' = .released ∨ m.freed = true := by
  cases p with
  | release =>
    obtain ⟨rfl, rfl, rfl⟩ := outcome_inj hn
    exact Or.inl rfl
  | released | leaked | refused => cases hn
  | shut q =>
    obtain ⟨rc, rfl⟩ := hfrom q rfl
    obtain ⟨rfl, rfl, rfl⟩ := outcome_inj hn
    exact Or.inr hfreed
  | lock | relock =>
    simp only [DestroyPc.next, Option.map_eq_some_iff, Prod.mk.injEq] at hn
    obtain ⟨m₁, hm, rfl, -, -⟩ := hn
    rw [(Ctl.lockLife_eq hm).2] at hfreed
    exact Or.inr hfreed
  | cas | waiters | blocked | ckWorker | joined =>
    simp only [DestroyPc.next] at hn
    split at hn <;> cases hn <;> exact Or.inr hfreed
  | _ =>
    obtain ⟨rfl, rfl, rfl⟩ := outcome_inj hn
    exact Or.inr hfreed

end Own

/-! ## All parties together -/

section Run

variable {c : Config} {s s' : Pool}

/-- While the pool is being destroyed. -/
structure Pool.Owned (c : Config) (s : Pool) : Prop where
  alone : ∀ n p, (s.thr (.api n)).pc = .destroy p →
    ∀ n', n' ≠ n → (s.thr (.api n')).pc.closing = true
  settled : ∀ n p, (s.thr (.api n)).pc = .destroy p → p.settled = true → s.ctl.Settled c
  drained : ∀ n p, (s.thr (.api n)).pc = .destroy p → p.drained = true →
    ∀ n', (s.thr (.api n')).pc.holdsRef = false
  freed : s.ctl.freed = true → ∃ n, (s.thr (.api n)).pc = .destroy .released

theorem Pool.Owned.init (now : Nat) : (Pool.init c now).Owned c where
  alone _ _ h := by cases h
  settled _ _ h := by cases h
  drained _ _ h := by cases h
  freed h := by cases h

/-- Nobody is destroying the pool. -/
theorem Pool.Owned.idle (hfreed : s.ctl.freed = false)
    (h : ∀ n p, (s.thr (.api n)).pc ≠ .destroy p) : s.Owned c where
  alone n p hp := absurd hp (h n p)
  settled n p hp := absurd hp (h n p)
  drained n p hp := absurd hp (h n p)
  freed hf := by cases hfreed.symm.trans hf

/-- The public calls stand where they stood. -/
theorem Pool.Owned.congr (h : s.Owned c) (hpc : ∀ n, (s'.thr (.api n)).pc = (s.thr (.api n)).pc)
    (hset : s.ctl.Settled c → s'.ctl.Settled c) (hfreed : s'.ctl.freed = s.ctl.freed) :
    s'.Owned c where
  alone n p hp n' hne := by
    rw [hpc] at hp ⊢
    exact h.alone n p hp n' hne
  settled n p hp hset' := hset (h.settled n p (hpc n ▸ hp) hset')
  drained n p hp hd n' := by
    rw [hpc] at hp ⊢
    exact h.drained n p hp hd n'
  freed hf := by
    obtain ⟨n, hn⟩ := h.freed (hfreed.symm.trans hf)
    exact ⟨n, (hpc n).trans hn⟩

/-- Who destroys the pool is the only one to do so. -/
theorem Pool.Owned.sole (h : s.Owned c) {n n' : Nat} {p p' : DestroyPc}
    (hp : (s.thr (.api n)).pc = .destroy p) (hp' : (s.thr (.api n')).pc = .destroy p') : n' = n := by
  by_contra hne
  have hclosing := h.alone n p hp n' hne
  rw [hp'] at hclosing
  cases hclosing

/-- **Step lemma.** -/
theorem Pool.Owned.step (h : s.Owned c) (hs : Sound c s) (hdated : s.Dated) (hacc : Accounts s)
    {e : Label} (howner : Owner s e) (hst : s.step c e = some s') : s'.Owned c := by
  cases Pool.step_act hs.seated hst with
  | tick t => exact h.congr (fun _ ↦ rfl) id rfl
  | access a x spurious r l hact hstep => exact h.congr (fun _ ↦ Pool.accessed_pc) id rfl
  | worker i j x hi hj hp hn hk =>
    refine h.congr (fun n ↦ by rw [Pool.moved_of_ne (by simp)]) (fun hset ↦ ?_) ?_
    · rw [hs.worker_done hset hi hj hp] at hn
      cases hn
    · have hf := congrArg Ctl.freed (WorkerPc.next_frame hn).1.1
      exact hf
  | sup x he hp hn hk =>
    refine h.congr (fun n ↦ by rw [Pool.moved_of_ne (by simp)]) (fun hset ↦ ?_) ?_
    · rw [hs.sup_done hset he hp] at hn
      cases hn
    · have hf := congrArg Ctl.freed (SupPc.next_frame hn).1
      exact hf
  | helper j x hj hp hn hk =>
    have hframe := HelperPc.next_frame hn
    refine h.congr (fun n ↦ by rw [Pool.moved_of_ne (by simp)]) (fun hset ↦ ?_) ?_
    · have hw := congrArg Ctl.w hframe
      have hj := congrArg Ctl.supervisorJoined hframe
      exact ⟨hj.trans hset.1, fun i hi ↦ by rw [Pool.moved_ctl, hw]; exact hset.2 i hi⟩
    · have hf := congrArg Ctl.freed hframe
      exact hf
  | call n pool f hidle | shutdown n tls hidle =>
    refine .idle ?_ fun n' p hp ↦ ?_
    · by_contra hf
      obtain ⟨n', hn'⟩ := h.freed (by simpa using hf)
      exact howner n' _ hn'
    · by_cases hne : n' = n
      · subst hne
        rw [Pool.moved_self] at hp
        cases hp
      · rw [Pool.moved_of_ne (by simpa using hne)] at hp
        exact howner n' p hp
  | destroyed n hidle =>
    -- the one who begins finds no other
    have hother : ∀ n' p, n' ≠ n → (s.thr (.api n')).pc ≠ .destroy p := fun n' p hne hp ↦ by
      have hrests := howner n' hne
      rw [hp] at hrests
      cases hrests
    have hcas : ∀ n' p, ((s.moved s.ctl s.dat (.api n) (.destroy .cas) (s.thr (.api n)).sh
        (s.thr (.api n)).loc).thr (.api n')).pc = .destroy p → n' = n ∧ p = .cas := by
      intro n' p hp
      by_cases hne : n' = n
      · subst hne
        rw [Pool.moved_self, Pc.destroy.injEq] at hp
        exact ⟨rfl, hp.symm⟩
      · rw [Pool.moved_of_ne (by simpa using hne)] at hp
        exact absurd hp (hother n' p hne)
    refine ⟨fun n' p hp n'' hne ↦ ?_, fun n' p hp hset ↦ ?_, fun n' p hp hd ↦ ?_, fun hf ↦ ?_⟩
    · obtain ⟨rfl, -⟩ := hcas n' p hp
      rw [Pool.moved_of_ne (by simpa using hne)]
      exact Pc.closing_of_rests (howner n'' hne)
    · obtain ⟨-, rfl⟩ := hcas n' p hp
      cases hset
    · obtain ⟨-, rfl⟩ := hcas n' p hp
      cases hd
    · obtain ⟨n', hn'⟩ := h.freed hf
      by_cases hne : n' = n
      · subst hne
        rw [hidle] at hn'
        cases hn'
      · exact absurd hn' (hother n' _ hne)
  | api n x hp hn hk =>
    rename_i p p' d k sh l
    have hmoved : ∀ n' q, ((s.moved s.ctl d (.api n) (.api p') sh l).thr (.api n')).pc = .destroy q →
        n' ≠ n ∧ (s.thr (.api n')).pc = .destroy q := by
      intro n' q hq
      by_cases hne : n' = n
      · subst hne
        rw [Pool.moved_self] at hq
        cases hq
      · rw [Pool.moved_of_ne (by simpa using hne)] at hq
        exact ⟨hne, hq⟩
    refine ⟨fun n' q hq n'' hne' ↦ ?_, fun n' q hq hset ↦ ?_, fun n' q hq hd ↦ ?_, fun hf ↦ ?_⟩
    · obtain ⟨-, hq⟩ := hmoved n' q hq
      have hclosing := h.alone n' q hq n'' hne'
      by_cases hne'' : n'' = n
      · subst hne''
        rw [hp] at hclosing
        rw [Pool.moved_self]
        exact ApiPc.closing_next hclosing hn
      · rw [Pool.moved_of_ne (by simpa using hne'')]
        exact hclosing
    · exact h.settled n' q (hmoved n' q hq).2 hset
    · obtain ⟨hne, hq⟩ := hmoved n' q hq
      have hclosing := h.alone n' q hq n hne.symm
      have href := h.drained n' q hq hd n
      rw [hp] at hclosing href
      rw [ApiPc.closing_stuck hclosing href] at hn
      cases hn
    · obtain ⟨n', hn'⟩ := h.freed hf
      refine ⟨n', ?_⟩
      rw [Pool.moved_of_ne]
      · exact hn'
      · rintro ⟨⟩
        rw [hp] at hn'
        cases hn'
  | shut n x hw hp hn hk =>
    rename_i wrap q q' m k sh l
    -- whoever destroys the pool meanwhile is this call
    have hme : ∀ n' p, (s.thr (.api n')).pc = .destroy p → n' = n := by
      intro n' p hp'
      by_contra hne
      have hclosing := h.alone n' p hp' n fun heq ↦ hne heq.symm
      rw [hp] at hclosing
      cases hw with
      | shut =>
        cases q with
        | done rc => cases hn
        | _ => cases hclosing
      | destroy => cases hclosing
    have hmoved : ∀ n' p, ((s.moved m s.dat (.api n) (wrap q') sh l).thr (.api n')).pc = .destroy p →
        n' = n ∧ p = .shut q' ∧ (s.thr (.api n)).pc = .destroy (.shut q) := by
      intro n' p hp'
      by_cases hne : n' = n
      · subst hne
        rw [Pool.moved_self] at hp'
        cases hw with
        | shut => cases hp'
        | destroy =>
          rw [Pc.destroy.injEq] at hp'
          exact ⟨rfl, hp'.symm, hp⟩
      · rw [Pool.moved_of_ne (by simpa using hne)] at hp'
        exact absurd (hme n' p hp') hne
    refine ⟨fun n' p hp' n'' hne' ↦ ?_, fun n' p hp' hset ↦ ?_, fun n' p hp' hd ↦ ?_, fun hf ↦ ?_⟩
    · obtain ⟨rfl, -, hold⟩ := hmoved n' p hp'
      rw [Pool.moved_of_ne (by simpa using hne')]
      exact h.alone n' _ hold n'' hne'
    · obtain ⟨-, rfl, -⟩ := hmoved n' p hp'
      cases hset
    · obtain ⟨-, rfl, -⟩ := hmoved n' p hp'
      cases hd
    · have hkeep := congrArg Ctl.freed (ShutPc.next_frame hn).1
      obtain ⟨n', hn'⟩ := h.freed (hkeep.symm.trans hf)
      have hrel := hn'
      rw [hme n' _ hn', hp] at hrel
      cases hw <;> cases hrel
  | destroy n x hp hn hfrom hto hframe hk =>
    rename_i p p' m k sh l
    have hmoved : ∀ n' q, ((s.moved m s.dat (.api n) (.destroy p') sh l).thr (.api n')).pc =
        .destroy q → n' = n ∧ q = p' := by
      intro n' q hq
      by_cases hne : n' = n
      · subst hne
        rw [Pool.moved_self, Pc.destroy.injEq] at hq
        exact ⟨rfl, hq.symm⟩
      · rw [Pool.moved_of_ne (by simpa using hne)] at hq
        exact absurd (h.sole hp hq) hne
    refine ⟨fun n' q hq n'' hne' ↦ ?_, fun n' q hq hset ↦ ?_, fun n' q hq hd n'' ↦ ?_, fun hf ↦ ?_⟩
    · obtain ⟨rfl, -⟩ := hmoved n' q hq
      rw [Pool.moved_of_ne (by simpa using hne')]
      exact h.alone n' _ hp n'' hne'
    · obtain ⟨-, rfl⟩ := hmoved n' q hq
      have hold : s.ctl.Settled c := by
        rcases DestroyPc.next_settled hn hset with hbefore | ⟨hstopped, hquar⟩
        · exact h.settled n p hp hbefore
        · refine (hs.custody.stopped (hdated.after n p hp hstopped)).resolve_left ?_
          rw [hquar]
          decide
      have hw := congrArg Ctl.w hframe
      have hj := congrArg Ctl.supervisorJoined hframe
      exact ⟨hj.trans hold.1, fun i hi ↦ by rw [Pool.moved_ctl, hw]; exact hold.2 i hi⟩
    · obtain ⟨-, rfl⟩ := hmoved n' q hq
      by_cases hne : n'' = n
      · subst hne
        rw [Pool.moved_self]
        rfl
      · rw [Pool.moved_of_ne (by simpa using hne)]
        rcases DestroyPc.next_drained hn hd with hbefore | hzero
        · exact h.drained n p hp hbefore n''
        · simpa using hacc.refs.none_of_le_zero hzero n''
    · rcases DestroyPc.next_freed hn hfrom hf with rfl | hbefore
      · exact ⟨n, by rw [Pool.moved_self]⟩
      · obtain ⟨n', hn'⟩ := h.freed hbefore
        have hrel := hn'
        rw [h.sole hp hn', hp, Pc.destroy.injEq] at hrel
        subst hrel
        cases hn

theorem Pool.Owned.run {now : Nat} (hrun : Steps (Pool.step c) Owner (Pool.init c now) s) :
    s.Owned c := by
  refine hrun.invariant_under (P := Pool.Owned c)
    (Q := fun t ↦ Sound c t ∧ t.Dated ∧ Accounts t)
    (fun _ ht ↦ ⟨Sound.run ht, Pool.Dated.run ht, Accounts.run ht⟩) ?_ (.init now)
  intro t e t' hQ _ h howner hst
  exact h.step hQ.1 hQ.2.1 hQ.2.2 howner hst

/-! ## Results -/

/-- A party is inside a ring function only where its program calls one. -/
theorem Seated.not_active (hs : Seated c s) {a : Agent} (h : (s.thr a).pc.place c a = .out) :
    (s.thr a).loc.active = false := by
  have hfit := hs.fits a
  rw [h] at hfit
  rw [show (s.thr a).loc = .idle from hfit]
  rfl

/-- Nobody is in a ring function when the storage is released. -/
theorem Pool.Owned.out (h : s.Owned c) (hs : Sound c s) {o : Nat}
    (ho : (s.thr (.api o)).pc = .destroy .released) {a : Agent} (hex : s.exists c a = true) :
    (s.thr a).pc.place c a = .out := by
  have hset := h.settled o _ ho rfl
  have hrun := hs.seated.runs a
  cases a with
  | api n =>
    by_cases hne : n = o
    · rw [hne, ho]
      rfl
    · have hclosing := h.alone o _ ho n hne
      have href := h.drained o _ ho rfl n
      cases hpc : (s.thr (.api n)).pc with
      | api p =>
        rw [hpc] at hclosing href
        cases p with
        | idle | done rc slot | read v => rfl
        | claimed | publish | submitted | deactivate | leave => cases href
        | _ => cases hclosing
      | shut p =>
        rw [hpc] at hclosing
        cases p with
        | done rc => rfl
        | _ => cases hclosing
      | _ =>
        rw [hpc] at hclosing
        cases hclosing
  | worker i k =>
    simp only [Pool.exists, decide_eq_true_eq] at hex
    cases hpc : (s.thr (.worker i k)).pc with
    | worker p =>
      rw [hs.worker_done hset hex.1 hex.2 hpc]
      rfl
    | _ =>
      rw [hpc] at hrun
      cases hrun
  | sup =>
    cases hpc : (s.thr .sup).pc with
    | sup p =>
      rw [hs.sup_done hset hex hpc]
      rfl
    | _ =>
      rw [hpc] at hrun
      cases hrun
  | helper j =>
    cases hpc : (s.thr (.helper j)).pc with
    | helper p => rfl
    | _ =>
      rw [hpc] at hrun
      cases hrun

end Run

/-- Party 0 destroys a pool that is still running: it shuts it down, and joins the worker. -/
def destroyed : List Label :=
  .destroy 0 :: (turns (.api 0) 28 ++ turns (.worker 0 0) 10 ++ turns (.api 0) 6 ++
    turns (.helper 0) 2 ++ turns (.api 0) 35)

end Awp
