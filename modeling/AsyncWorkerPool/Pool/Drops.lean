import AsyncWorkerPool.Pool.Act

/-!
# Drops — what `awp_pool_drops` counts

The value is `dropped + abandoned`.  The shutdown drain counts each frame it takes off a ring, but
of the calls that a closed ring turns away only `awp_submit` counts itself: `awp_claim_frame`, and
`awp_submit_keyed` which goes through it, come back with -1 unrecorded.
-/

open Foundation

namespace Awp

/-! ## The calls turned away -/

/-- The call comes back with -1 and has had its chance to count itself. -/
def ApiPc.turned (l : Loc Nat Nat) : ApiPc → Bool
  | .reserve j =>
    match l with
    | .ret (.rc _) => !j.submits
    | _ => false
  | .deactivate _ rc _ | .leave _ rc _ | .done rc _ => rc = -1
  | _ => false

def Pc.turned (l : Loc Nat Nat) : Pc → Bool
  | .api p => p.turned l
  | _ => false

/-- The call has come back with -1. -/
def Pc.rejected : Pc → Bool
  | .api (.done rc _) => rc = -1
  | _ => false

/-- `awp_claim_frame`, called as such or by `awp_submit_keyed`, loads `closed` and finds it set. -/
def Thread.missed (r : Ring Nat Agent Nat) (t : Thread) : Bool :=
  match t.pc, t.loc with
  | .api (.reserve j), .enqClosed _ _ => !j.submits && r.closed
  | _, _ => false

def Pool.missed (s : Pool) : Label → Bool
  | .step (.api n) _ => (s.thr (.api n)).missed (s.ring (s.thr (.api n)).sh)
  | _ => false

section Turned

variable {c : Config} {m : Ctl} {d d' : Dat} {l l' : Loc Nat Nat} {x : Choice} {k : Cmd}
  {p p' : ApiPc} {sh sh' : Nat}

theorem Job.again_turned (j : Job) {loop : Job → ApiPc} (h : ∀ j, (loop j).turned .idle = false) :
    (j.again loop).turned .idle = false := by
  rw [Job.again]
  split
  · exact h _
  · rfl

theorem Job.return_turned (j : Job) (rc : Int) (slot : Option (Nat × Nat)) :
    (j.return rc slot).turned .idle = decide (rc = -1) := by
  rw [Job.return]
  cases j.kind with
  | submit a ns | claim => rfl
  | keyed a =>
    dsimp only
    split
    · rfl
    · rename_i hrc
      rw [j.again_turned fun _ ↦ rfl]
      simp [(not_or.mp hrc).2]

theorem Job.refused_turned (j : Job) {v : Ret Nat Nat} (hv : RingFn.claim.spans (.ret v) = true) :
    (j.refused v).turned .idle = (ApiPc.reserve j).turned (.ret v) := by
  simp only [Job.refused]
  cases v with
  | rc n =>
    cases hk : j.kind <;> simp [ApiPc.turned, Job.submits, hk]
  | slotFull | slotAhead | slotLost =>
    cases hk : j.kind with
    | submit a ns => first | exact j.again_turned fun _ ↦ rfl | rfl
    | claim | keyed a => simp [ApiPc.turned, eagain]
  | _ => cases hv

theorem Dat.fill_dropped (d : Dat) (now i slot : Nat) (f : Fill) :
    (d.fill now i slot f).dropped = d.dropped := by
  cases f <;> rfl

theorem Args.check_ne (a : Args) : a.check ≠ -1 := by
  rw [Args.check]
  repeat' split
  all_goals decide

/-- `awp_submit` counts itself when it is turned away; nothing else writes `dropped`. -/
theorem ApiPc.next_turned (hn : p.next c m d l x = some (d', p', k)) (hfit : p.place.Fits sh l)
    (hk : k.apply sh l = some (sh', l')) :
    (d'.dropped : Int) = d.dropped + (p'.turned l').toInt - (p.turned l).toInt := by
  have hsame : ∀ {q : ApiPc}, q.turned l' = p.turned l →
      (d.dropped : Int) = d.dropped + (q.turned l').toInt - (p.turned l).toInt := by
    intro q hq
    rw [hq]
    omega
  have hidle : ∀ {q : ApiPc}, Cmd.stay.apply sh l = some (sh', l') → q.place = .out →
      q.place.Fits sh l → l' = .idle ∧ l = .idle := by
    intro q hk hq hfit
    rw [hq] at hfit
    cases hk
    exact ⟨hfit, hfit⟩
  cases p with
  | idle | done rc slot | read v => cases hn
  | submitEnter a =>
    obtain ⟨rfl, rfl, rfl⟩ := outcome_inj hn
    refine hsame ?_
    split
    · rfl
    · simp [ApiPc.turned, a.check_ne]
  | submitGate a g =>
    obtain ⟨rfl, rfl, rfl⟩ := outcome_inj hn
    refine hsame ?_
    split
    · cases g <;> rfl
    · simp [ApiPc.turned, einval]
  | retry j =>
    obtain ⟨rfl, rfl, rfl⟩ := outcome_inj hn
    obtain ⟨rfl, rfl⟩ := hidle hk rfl hfit
    refine hsame ?_
    split
    · exact j.again_turned fun _ ↦ rfl
    · rfl
  | gate j g =>
    obtain ⟨rfl, rfl, rfl⟩ := outcome_inj hn
    obtain ⟨rfl, rfl⟩ := hidle hk rfl hfit
    refine hsame ?_
    split
    · cases g <;> rfl
    · rw [Job.reject]
      cases j.kind <;> simp [ApiPc.turned, einval]
  | reserve j =>
    cases l with
    | idle =>
      obtain ⟨rfl, rfl, rfl⟩ := outcome_inj hn
      obtain ⟨-, -, rfl⟩ := Cmd.apply_call hk
      exact hsame rfl
    | held pos =>
      obtain ⟨rfl, rfl, rfl⟩ := outcome_inj hn
      cases hk
      refine hsame ?_
      cases j.kind <;> rfl
    | ret v =>
      obtain ⟨rfl, rfl, rfl⟩ := outcome_inj hn
      cases hk
      refine hsame (j.refused_turned ?_)
      rcases hfit with ⟨hl, -⟩ | ⟨-, hspan⟩
      · cases hl
      · exact hspan
    | _ => cases hn
  | waitSpace j =>
    cases l with
    | idle =>
      obtain ⟨rfl, rfl, rfl⟩ := outcome_inj hn
      exact hsame rfl
    | ret v =>
      obtain ⟨rfl, rfl, rfl⟩ := outcome_inj hn
      refine hsame ?_
      cases j.kind <;> rfl
    | _ => cases hn
  | drop j =>
    obtain ⟨rfl, rfl, rfl⟩ := outcome_inj hn
    simp [ApiPc.turned]
  | fill j pos ws =>
    cases ws with
    | cons f ws =>
      obtain ⟨rfl, rfl, rfl⟩ := outcome_inj hn
      rw [Dat.fill_dropped]
      exact hsame rfl
    | nil =>
      obtain ⟨rfl, rfl, rfl⟩ := outcome_inj hn
      refine hsame ?_
      cases j.kind <;> rfl
  | claimed j pos => cases x <;> cases hn <;> exact hsame rfl
  | publish j pos => cases l <;> cases hn <;> exact hsame rfl
  | submitted j pos =>
    obtain ⟨rfl, rfl, rfl⟩ := outcome_inj hn
    exact hsame (by simp [ApiPc.turned])
  | leave j rc slot =>
    obtain ⟨rfl, rfl, rfl⟩ := outcome_inj hn
    obtain ⟨rfl, rfl⟩ := hidle hk rfl hfit
    exact hsame (j.return_turned rc slot)
  | readEnter r =>
    obtain ⟨rfl, rfl, rfl⟩ := outcome_inj hn
    refine hsame ?_
    cases r <;> rfl
  | _ =>
    obtain ⟨rfl, rfl, rfl⟩ := outcome_inj hn
    exact hsame rfl

/-- Inside the ring functions it is the load of `closed` that turns a claim away. -/
theorem ApiPc.access_turned {r r' : Ring Nat Agent Nat} {cap : Nat} {a : Agent} {spurious : Bool}
    (hact : l.active = true) (hfit : p.place.Fits sh l)
    (hstep : r.step cap a spurious l = some (r', l')) :
    (p.turned l').toInt = (p.turned l).toInt + (Thread.missed r ⟨.api p, sh, l⟩).toInt := by
  cases p with
  | reserve j =>
    have hsp : RingFn.claim.spans l = true := by
      rcases hfit with ⟨rfl, -⟩ | ⟨-, hsp⟩
      · cases hact
      · exact hsp
    cases l with
    | enqClosed k spin =>
      cases hstep
      cases hc : r.closed <;> simp [ApiPc.turned, Thread.missed, hc]
    | enqPos k spin =>
      cases hstep
      rfl
    | enqSeq k spin pos | enqCas k spin pos =>
      cases k <;> simp only [RingFn.spans, Bool.false_eq_true] at hsp
      simp only [Ring.step, Enq.ready, Enq.full, Enq.ahead, Enq.reserved, Enq.lost] at hstep
      repeat' split at hstep
      all_goals
        cases hstep
        rfl
    | held pos | ret v => cases hact
    | _ => simp [RingFn.spans] at hsp
  | deactivate j rc slot | leave j rc slot | done rc slot =>
    simp [ApiPc.turned, Thread.missed]
  | _ => rfl

end Turned

/-! ## The drain -/

section Drain

variable {c : Config} {m m' : Ctl} {l : Loc Nat Nat} {x : Choice} {k : Cmd}

/-- `abandoned` counts the frames that the drain has taken. -/
def Ctl.Tallied (m : Ctl) : Prop := m.abandoned = m.drained.length

theorem Ctl.Tallied.congr (h : m.Tallied) (ha : m'.abandoned = m.abandoned)
    (hd : m'.drained = m.drained) : m'.Tallied := by
  rw [Ctl.Tallied, ha, hd]
  exact h

theorem ShutPc.next_tallied {active : Int} {me : Agent} {p p' : ShutPc} (h : m.Tallied)
    (hn : p.next c m active me l x = some (m', p', k)) : m'.Tallied := by
  cases p with
  | drainCount e i q =>
    obtain ⟨rfl, rfl, rfl⟩ := outcome_inj hn
    simp only [Ctl.Tallied, List.length_append, List.length_singleton]
    exact congrArg (· + 1) h
  | drainPop e i =>
    cases l <;> simp only [ShutPc.next] at hn <;> grind
  | timeoutClose e i | closeAll e i | lateClose e i =>
    simp only [ShutPc.next] at hn
    split at hn
    · rw [(closeCall_cases hn).1]
      exact h
    · cases hn
      exact h
  | stopClose e i =>
    rw [(closeCall_cases hn).1]
    exact h
  | waitLock | waitRelock | quiesceLock | lifeLock e last =>
    simp only [ShutPc.next, Option.map_eq_some_iff, Prod.mk.injEq] at hn
    obtain ⟨m₁, hm, rfl, -, -⟩ := hn
    rw [(Ctl.lockLife_eq hm).2]
    exact h
  | joinCreate e t =>
    cases x with
    | go =>
      obtain ⟨rfl, rfl, rfl⟩ := outcome_inj hn
      exact h
    | rc n =>
      simp only [ShutPc.next] at hn
      split at hn <;> cases hn
      exact h
    | _ => cases hn
  | cas life | waitLife | waitBlocked ticket | anyQuarantined e i =>
    simp only [ShutPc.next] at hn
    split at hn <;> cases hn <;> exact h
  | done rc => cases hn
  | _ =>
    obtain ⟨rfl, rfl, rfl⟩ := outcome_inj hn
    exact h

theorem Pool.step_tallied {s s' : Pool} (hs : Seated c s) (h : s.ctl.Tallied) {e : Label}
    (hst : s.step c e = some s') : s'.ctl.Tallied := by
  cases Pool.step_act hs hst with
  | tick | call | shutdown | destroyed | access | api => exact h
  | shut n x hw hp hn hk => exact ShutPc.next_tallied h hn
  | destroy n x hp hn hfrom hto hframe hk =>
    exact h.congr (congrArg Ctl.abandoned hframe :) (congrArg Ctl.drained hframe :)
  | worker i j x hi hj hp hn hk =>
    have hf := (WorkerPc.next_frame hn).1.1
    exact h.congr (congrArg Ctl.abandoned hf :) (congrArg Ctl.drained hf :)
  | sup x he hp hn hk =>
    have hf := (SupPc.next_frame hn).1
    exact h.congr (congrArg Ctl.abandoned hf :) (congrArg Ctl.drained hf :)
  | helper j x hh hp hn hk =>
    have hf := HelperPc.next_frame hn
    exact h.congr (congrArg Ctl.abandoned hf :) (congrArg Ctl.drained hf :)

/-- The books of the drain: what has been taken off a ring, and is neither passed to `process` nor
in anybody's hands, is in `drained`. -/
theorem Ledger.mem_drained {s : Pool} {i : Nat} {ph : Phase} (h : Ledger c s i ph) (q : Nat) :
    (i, q) ∈ s.ctl.drained ↔ q < (s.ring i).dequeuePos ∧ q ∉ started (s.ctl.w i).events ∧
      ∀ a, s.inHand a i ≠ some q := by
  have hmem : (i, q) ∈ s.ctl.drained ↔ q ∈ s.ctl.drainedAt i := by
    simp [Ctl.drainedAt]
  rw [hmem, h.drained, h.serial.started_eq, List.mem_range'_1, List.mem_range]
  by_cases hany : ∃ a p, s.inHand a i = some p
  · obtain ⟨a, p, hp⟩ := hany
    obtain ⟨hdeq, hpos⟩ := h.hand a p hp
    have hhand : (∀ b, s.inHand b i ≠ some q) ↔ q ≠ p := by
      refine ⟨fun hq heq ↦ hq a (heq ▸ hp), fun hne b hb ↦ hne ?_⟩
      have hb' := (h.hand b q hb).1
      omega
    rw [hhand]
    omega
  · simp only [not_exists] at hany
    have hnone : ∀ a, s.inHand a i = none := fun a ↦
      Option.eq_none_iff_forall_ne_some.mpr fun p ↦ hany a p
    have hdeq := h.free hnone
    have hhand : ∀ b, s.inHand b i ≠ some q := fun b ↦ hany b q
    constructor
    · exact fun hq ↦ ⟨by omega, by omega, hhand⟩
    · rintro ⟨hlt, hge, -⟩
      omega

/-- The drain counts no frame twice. -/
theorem Ctl.drained_nodup {s : Pool} (h : ∀ i, ∃ ph, Ledger c s i ph) : s.ctl.drained.Nodup := by
  rw [List.nodup_iff_count_le_one]
  rintro ⟨i, q⟩
  obtain ⟨ph, hl⟩ := h i
  have hnodup : (s.ctl.drainedAt i).Nodup := by
    rw [hl.drained]
    exact List.nodup_range'
  have hfilter : (s.ctl.drained.filter (·.1 = i)).Nodup := List.Nodup.of_map _ hnodup
  have hcount := List.nodup_iff_count_le_one.mp hfilter (i, q)
  rwa [List.count_filter (by simp)] at hcount

end Drain

/-! ## The counter in a run -/

section Run

variable {c : Config} {s s' : Pool} {now : Nat}

/-- What `awp_pool_drops` and `awp_pool_get_metrics` compute. -/
def Pool.reported (s : Pool) : Nat := s.dat.dropped + s.ctl.abandoned

def Pool.turned (s : Pool) (n : Nat) : Bool := (s.thr (.api n)).pc.turned (s.thr (.api n)).loc

/-- With the `k` misses so far, `dropped` is the number of calls turned away. -/
def Pool.Recorded (s : Pool) (k : Nat) : Prop :=
  Counted (fun n ↦ s.turned n = true) (s.dat.dropped + k : Int)

/-- Call `n` moves, and nobody else. -/
theorem Pool.Recorded.move {n k k' : Nat} (h : s.Recorded k)
    (hother : ∀ j, j ≠ n → s'.thr (.api j) = s.thr (.api j))
    (hn : (s'.dat.dropped + k' : Int) =
      (s.dat.dropped + k : Int) + (s'.turned n).toInt - (s.turned n).toInt) : s'.Recorded k' :=
  Counted.move (b := n) h (fun j hj ↦ by rw [Pool.turned, hother j hj, Pool.turned]) hn

theorem ApiCall.start_turned (f : ApiCall) (pool : Bool) :
    (f.start c pool).turned .idle = false := by
  cases f <;> simp only [ApiCall.start] <;> repeat' split
  all_goals rfl

/-- No call moves. -/
theorem Pool.Recorded.still {k : Nat} (h : s.Recorded k)
    (hthr : ∀ j, s'.thr (.api j) = s.thr (.api j)) (hd : s'.dat.dropped = s.dat.dropped) :
    s'.Recorded k := by
  rw [Pool.Recorded, hd]
  exact Counted.congr h fun j ↦ by rw [Pool.turned, Pool.turned, hthr j]

/-- A party in its own program is not in the middle of a claim. -/
theorem ApiPc.next_missed {p p' : ApiPc} {m : Ctl} {d d' : Dat} {l : Loc Nat Nat} {x : Choice}
    {k : Cmd} (r : Ring Nat Agent Nat) (sh : Nat) (hn : p.next c m d l x = some (d', p', k)) :
    Thread.missed r ⟨.api p, sh, l⟩ = false := by
  cases p with
  | reserve j =>
    cases l with
    | enqClosed k spin => cases hn
    | _ => rfl
  | _ => rfl

/-- **Step lemma.** `dropped` follows the calls that are turned away, but for the misses. -/
theorem Pool.Recorded.step (hs : Seated c s) {k : Nat} (h : s.Recorded k) {e : Label}
    (hst : s.step c e = some s') : s'.Recorded (k + (s.missed e).toNat) := by
  have hne : ∀ {j n : Nat}, j ≠ n → Agent.api j ≠ .api n := by simp
  -- a party that shuts down or destroys is not among those counted
  have hquiet : ∀ {n : Nat} {pc pc' : Pc} {m : Ctl} {sh : Nat} {l : Loc Nat Nat} {x : Choice},
      (s.thr (.api n)).pc = pc → (∀ p, pc ≠ .api p) → (∀ p, pc' ≠ .api p) →
      (s.moved m s.dat (.api n) pc' sh l).Recorded (k + (s.missed (.step (.api n) x)).toNat) := by
    intro n pc pc' m sh l x hp hpc hpc'
    have hmiss : s.missed (.step (.api n) x) = false := by
      rw [Pool.missed, Thread.missed, hp]
      cases pc with
      | api p => exact absurd rfl (hpc p)
      | _ => rfl
    have hturn : ∀ {pc : Pc} (l), (∀ p, pc ≠ .api p) → pc.turned l = false := by
      intro pc l hpc
      cases pc with
      | api p => exact absurd rfl (hpc p)
      | _ => rfl
    refine h.move (n := n) (fun j hj ↦ Pool.moved_of_ne (hne hj)) ?_
    simp only [Pool.turned, Pool.moved_self, Pool.moved_dat, hp, hturn _ hpc, hturn _ hpc', hmiss]
    simp
  have hnotePub : ∀ sh l, (s.dat.notePublish c sh l).dropped = s.dat.dropped := fun sh l ↦ by
    cases l <;> rfl
  cases Pool.step_act hs hst with
  | tick t => exact h
  | call n pool f hidle =>
    refine h.move (n := n) (fun j hj ↦ Pool.moved_of_ne (hne hj)) ?_
    simp only [Pool.turned, Pool.moved_self, Pool.moved_dat, hidle, hs.idle_loc hidle, Pc.turned,
      f.start_turned]
    rfl
  | shutdown n tls hidle | destroyed n hidle =>
    refine h.move (n := n) (fun j hj ↦ Pool.moved_of_ne (hne hj)) ?_
    simp only [Pool.turned, Pool.moved_self, Pool.moved_dat, hidle]
    rfl
  | access a x spurious r l hact hstep =>
    cases a with
    | api n =>
      refine h.move (n := n) (fun j hj ↦ Pool.accessed_of_ne (hne hj)) ?_
      have hdropped : (s.accessed c (.api n) r l).dat.dropped = s.dat.dropped := hnotePub _ _
      simp only [Pool.turned, Pool.accessed_self, hdropped, Pool.missed]
      cases hpc : (s.thr (.api n)).pc with
      | api p =>
        have hfit := hs.fits (.api n)
        rw [hpc] at hfit
        have hturn := p.access_turned hact hfit hstep
        rw [← hpc] at hturn
        simp only [Pc.turned, hturn]
        push_cast
        cases (s.thr (.api n)).missed (s.ring (s.thr (.api n)).sh) with
        | false => simp
        | true =>
          simp
          omega
      | _ => simp [Pc.turned, Thread.missed, hpc]
    | worker | sup | helper =>
      exact h.still (fun j ↦ Pool.accessed_of_ne (by simp)) (hnotePub _ _)
  | api n x hp hn hk =>
    have hfit := hs.fits (.api n)
    rw [hp] at hfit
    have hmiss : s.missed (.step (.api n) x) = false := by
      have hm := ApiPc.next_missed (s.ring (s.thr (.api n)).sh) (s.thr (.api n)).sh hn
      rwa [← hp] at hm
    refine h.move (n := n) (fun j hj ↦ Pool.moved_of_ne (hne hj)) ?_
    have hturn := ApiPc.next_turned hn hfit hk
    simp only [Pool.turned, Pool.moved_self, Pool.moved_dat, hp, Pc.turned, hmiss, Bool.toNat_false,
      Nat.add_zero]
    omega
  | shut n x hw hp hn hk =>
    cases hw <;> exact hquiet hp (by simp) (by simp)
  | destroy n x hp hn hfrom hto hframe hk => exact hquiet hp (by simp) (by simp)
  | worker | sup | helper => exact h.still (fun j ↦ Pool.moved_of_ne (by simp)) rfl

theorem Pool.Recorded.exec {es : List Label}
    (h : exec (Pool.step c) (Pool.init c now) es = some s) :
    s.Recorded (tally (Pool.step c) (fun t e _ ↦ (t.missed e).toNat) (Pool.init c now) es) := by
  have hinit : (Pool.init c now).Recorded 0 :=
    .zero fun n ↦ by simp [Pool.turned, Pool.init, Pc.turned, ApiPc.turned]
  have hend := tally_carried (I := fun t k ↦ Sound c t ∧ t.Recorded k)
    (w := fun t e _ ↦ (t.missed e).toNat)
    (fun t e t' k ht hst ↦ ⟨ht.1.step hst, ht.2.step ht.1.seated hst⟩) ⟨.init now, hinit⟩ h
  rw [Nat.zero_add] at hend
  exact hend.2

/-- A call outside the ring functions makes its next access. -/
theorem Pool.turn {n : Nat} {p p' : ApiPc} {d : Dat} {sh : Nat}
    (ht : s.thr (.api n) = ⟨.api p, sh, .idle⟩)
    (hn : p.next c s.ctl s.dat .idle .go = some (d, p', .stay)) :
    s.step c (.step (.api n) .go) = some (s.moved s.ctl d (.api n) (.api p') sh .idle) :=
  Pool.api_step (by rw [ht]) (by rw [ht]; rfl) (by rw [ht]; exact hn) (by rw [ht]; rfl)

/-- A reader that runs by itself reads the sum. -/
theorem Pool.read_reported (hs : Seated c s) {n : Nat} {f : ApiCall}
    (hf : f = .drops ∨ f = .metrics) (hidle : (s.thr (.api n)).pc = .api .idle) :
    ∃ s', exec (Pool.step c) s (.call n true f :: turns (.api n) 4) = some s' ∧
      (s'.thr (.api n)).pc = .api (.read s.reported) := by
  obtain ⟨r, hr, hgo⟩ : ∃ r, f.start c true = .readEnter r ∧ ∀ m d l x,
      (ApiPc.readEnter r).next c m d l x =
        some ({ d with apiRefs := d.apiRefs + 1 }, .readDropped, .stay) := by
    rcases hf with rfl | rfl
    · exact ⟨.drops, rfl, fun _ _ _ _ ↦ rfl⟩
    · exact ⟨.metrics, rfl, fun _ _ _ _ ↦ rfl⟩
  have hcall : s.step c (.call n true f) =
      some (s.moved s.ctl s.dat (.api n) (.api (.readEnter r)) (s.thr (.api n)).sh .idle) := by
    simp only [Pool.step, Pool.begin, hidle, hr, Pool.moved, hs.idle_loc hidle]
  simp only [turns, List.replicate, exec, hcall, Option.bind_some]
  rw [Pool.turn Pool.moved_self (hgo _ _ _ _), Option.bind_some]
  rw [Pool.turn Pool.moved_self rfl, Option.bind_some]
  rw [Pool.turn Pool.moved_self rfl, Option.bind_some]
  rw [Pool.turn Pool.moved_self rfl, Option.bind_some]
  exact ⟨_, rfl, by rw [Pool.moved_self]; rfl⟩

/-! Only a closed ring makes a call come back with -1. -/

/-- On its way out with -1. -/
def ApiPc.refusing (l : Loc Nat Nat) : ApiPc → Prop
  | .reserve _ => ∃ n, l = .ret (.rc n)
  | .drop _ => True
  | .deactivate _ rc _ | .leave _ rc _ | .done rc _ => rc = -1
  | _ => False

/-- The call loads `closed` of its ring and finds it set. -/
def Pool.refuses (s : Pool) (n : Nat) : Prop :=
  (∃ j, (s.thr (.api n)).pc = .api (.reserve j)) ∧
    (∃ k spin, (s.thr (.api n)).loc = .enqClosed k spin) ∧
    (s.ring (s.thr (.api n)).sh).closed = true

theorem Job.again_refusing {j : Job} {loop : Job → ApiPc} {l : Loc Nat Nat}
    (h : (j.again loop).refusing l) : ∃ j, (loop j).refusing l := by
  rw [Job.again] at h
  split at h
  · exact ⟨_, h⟩
  · exact h.elim

theorem ApiPc.refusing_next {m : Ctl} {d d' : Dat} {l l' : Loc Nat Nat} {x : Choice} {k : Cmd}
    {p p' : ApiPc} {sh sh' : Nat} (hn : p.next c m d l x = some (d', p', k))
    (hfit : p.place.Fits sh l) (hk : k.apply sh l = some (sh', l')) (h : p'.refusing l') : p.refusing l := by
  have hgate : ∀ {j : Job} {loop : Job → ApiPc} {l}, (∀ j, ¬ (loop j).refusing l) →
      ¬ (j.again loop).refusing l := fun hloop h ↦ (Job.again_refusing h).elim hloop
  cases p with
  | idle | done rc slot | read v => cases hn
  | submitEnter a =>
    obtain ⟨rfl, rfl, rfl⟩ := outcome_inj hn
    split at h
    · cases h
    · exact absurd h a.check_ne
  | submitGate a g =>
    obtain ⟨rfl, rfl, rfl⟩ := outcome_inj hn
    split at h
    · cases g <;> cases h
    · cases h
  | retry j =>
    obtain ⟨rfl, rfl, rfl⟩ := outcome_inj hn
    split at h
    · exact absurd h (hgate fun _ ↦ id)
    · cases h
  | gate j g =>
    obtain ⟨rfl, rfl, rfl⟩ := outcome_inj hn
    have hl : l' = .idle := by
      cases hk
      exact hfit
    subst hl
    split at h
    · cases g with
      | destroyStarted =>
        obtain ⟨n, hn⟩ := h
        cases hn
      | _ => cases h
    · rw [Job.reject] at h
      cases hkind : j.kind <;> rw [hkind] at h <;> cases h
  | reserve j =>
    cases l with
    | idle =>
      obtain ⟨rfl, rfl, rfl⟩ := outcome_inj hn
      obtain ⟨-, -, rfl⟩ := Cmd.apply_call hk
      obtain ⟨n, hn⟩ := h
      cases hn
    | held pos =>
      obtain ⟨rfl, rfl, rfl⟩ := outcome_inj hn
      cases hkind : j.kind <;> rw [hkind] at h <;> cases h
    | ret v =>
      obtain ⟨rfl, rfl, rfl⟩ := outcome_inj hn
      cases v with
      | rc n => exact ⟨n, rfl⟩
      | slotFull | slotAhead | slotLost =>
        simp only [Job.refused] at h
        cases hkind : j.kind with
        | submit a ns =>
          rw [hkind] at h
          first | exact absurd h (hgate fun _ ↦ id) | cases h
        | claim | keyed a =>
          rw [hkind] at h
          cases h
      | _ =>
        rcases hfit with ⟨hl, -⟩ | ⟨-, hspan⟩
        · cases hl
        · cases hspan
    | _ => cases hn
  | waitSpace j =>
    cases l with
    | idle =>
      obtain ⟨rfl, rfl, rfl⟩ := outcome_inj hn
      exact h
    | ret v =>
      obtain ⟨rfl, rfl, rfl⟩ := outcome_inj hn
      cases hkind : j.kind <;> rw [hkind] at h <;> cases h
    | _ => cases hn
  | drop j => trivial
  | fill j pos ws =>
    cases ws with
    | cons f ws =>
      obtain ⟨rfl, rfl, rfl⟩ := outcome_inj hn
      cases h
    | nil =>
      obtain ⟨rfl, rfl, rfl⟩ := outcome_inj hn
      cases hkind : j.kind <;> rw [hkind] at h <;> cases h
  | claimed j pos => cases x <;> cases hn <;> cases h
  | publish j pos => cases l <;> cases hn <;> cases h
  | leave j rc slot =>
    obtain ⟨rfl, rfl, rfl⟩ := outcome_inj hn
    rw [Job.return] at h
    cases hkind : j.kind with
    | submit a ns | claim =>
      rw [hkind] at h
      exact h
    | keyed a =>
      simp only [hkind] at h
      split at h
      · exact h
      · exact absurd h (hgate fun _ ↦ id)
  | readEnter r =>
    obtain ⟨rfl, rfl, rfl⟩ := outcome_inj hn
    cases r <;> cases h
  | deactivate j rc slot =>
    obtain ⟨rfl, rfl, rfl⟩ := outcome_inj hn
    exact h
  | _ =>
    obtain ⟨rfl, rfl, rfl⟩ := outcome_inj hn
    cases h

theorem ApiCall.start_refusing (f : ApiCall) (pool : Bool) : ¬ (f.start c pool).refusing .idle := by
  cases f <;> simp only [ApiCall.start] <;> repeat' split
  all_goals simp [ApiPc.refusing, einval, edeadlk]

/-- Inside the ring functions, the load of `closed` sends it there. -/
theorem ApiPc.refusing_access {r r' : Ring Nat Agent Nat} {cap : Nat} {a : Agent} {spurious : Bool}
    {l l' : Loc Nat Nat} {p : ApiPc} {sh : Nat} (hact : l.active = true) (hfit : p.place.Fits sh l)
    (hstep : r.step cap a spurious l = some (r', l')) (h : p.refusing l') :
    p.refusing l ∨ (∃ j, p = .reserve j) ∧ (∃ k spin, l = .enqClosed k spin) ∧ r.closed = true := by
  cases p with
  | reserve j =>
    obtain ⟨n, rfl⟩ := h
    have hsp : RingFn.claim.spans l = true := by
      rcases hfit with ⟨rfl, -⟩ | ⟨-, hsp⟩
      · cases hact
      · exact hsp
    cases l with
    | enqClosed k spin =>
      refine Or.inr ⟨⟨j, rfl⟩, ⟨k, spin, rfl⟩, ?_⟩
      simp only [Ring.step, Option.some.injEq, Prod.mk.injEq] at hstep
      by_contra hc
      rw [if_neg hc] at hstep
      cases hstep.2
    | enqPos k spin => cases hstep
    | enqSeq k spin pos | enqCas k spin pos =>
      cases k <;> simp only [RingFn.spans, Bool.false_eq_true] at hsp
      simp only [Ring.step, Enq.ready, Enq.full, Enq.ahead, Enq.reserved, Enq.lost] at hstep
      repeat' split at hstep
      all_goals cases hstep
    | held pos | ret v => cases hact
    | _ => simp [RingFn.spans] at hsp
  | _ => exact Or.inl h

/-- The call has found its ring closed on the way to `s`. -/
def Pool.Shunned (c : Config) (now n : Nat) (s : Pool) : Prop :=
  ∃ t, Steps (Pool.step c) anyStep (Pool.init c now) t ∧ t.refuses n ∧
    Steps (Pool.step c) anyStep t s

theorem Pool.Shunned.step {n : Nat} (h : s.Shunned c now n) {e : Label}
    (hst : s.step c e = some s') : s'.Shunned c now n := by
  obtain ⟨t, ht, hrefuses, hrun⟩ := h
  exact ⟨t, ht, hrefuses, hrun.tail trivial hst⟩

/-- A call comes back with -1 only from a closed ring. -/
theorem Pool.refused_closed (hrun : Steps (Pool.step c) anyStep (Pool.init c now) s) {n : Nat}
    {p : ApiPc} (hp : (s.thr (.api n)).pc = .api p) (h : p.refusing (s.thr (.api n)).loc) :
    s.Shunned c now n := by
  refine hrun.invariant_under
    (Q := fun t ↦ Sound c t ∧ Steps (Pool.step c) anyStep (Pool.init c now) t)
    (P := fun t ↦ ∀ p, (t.thr (.api n)).pc = .api p → p.refusing (t.thr (.api n)).loc →
      t.Shunned c now n)
    (fun t ht ↦ ⟨Sound.run ht, ht⟩) ?_ ?_ p hp h
  · rintro t e t' ⟨hs, ht⟩ - hP - hst q hq hrefusing
    -- what holds of a party that stays where it is
    have hstay : t'.thr (.api n) = t.thr (.api n) → t'.Shunned c now n := fun hthr ↦ by
      rw [hthr] at hq hrefusing
      exact (hP q hq hrefusing).step hst
    have hmoved : ∀ {m : Ctl} {d : Dat} {n' : Nat} {pc : Pc} {sh : Nat} {l : Loc Nat Nat},
        t' = t.moved m d (.api n') pc sh l → (n' = n → t'.Shunned c now n) →
        t'.Shunned c now n := by
      intro m d n' pc sh l ht' hown
      by_cases hn : n' = n
      · exact hown hn
      · refine hstay ?_
        rw [ht', Pool.moved_of_ne (by simpa using Ne.symm hn)]
    cases Pool.step_act hs.seated hst with
    | tick => exact hstay rfl
    | call n' pool f hidle =>
      refine hmoved rfl ?_
      rintro rfl
      rw [Pool.moved_self, Pc.api.injEq] at hq
      subst hq
      rw [Pool.moved_self, hs.seated.idle_loc hidle] at hrefusing
      exact absurd hrefusing (f.start_refusing pool)
    | shutdown n' tls hidle | destroyed n' hidle =>
      refine hmoved rfl ?_
      rintro rfl
      rw [Pool.moved_self] at hq
      cases hq
    | access a x spurious r l hact hstep =>
      by_cases ha : a = .api n
      · subst ha
        rw [Pool.accessed_pc] at hq
        rw [Pool.accessed_self] at hrefusing
        have hfit := hs.seated.fits (.api n)
        rw [hq] at hfit
        rcases ApiPc.refusing_access hact hfit hstep hrefusing with hold | ⟨⟨j, rfl⟩, hloc, hclosed⟩
        · exact (hP q hq hold).step hst
        · exact ⟨t, ht, ⟨⟨j, hq⟩, hloc, hclosed⟩, (Steps.refl t).tail trivial hst⟩
      · exact hstay (Pool.accessed_of_ne (Ne.symm ha))
    | api n' x hp' hn hk =>
      refine hmoved rfl ?_
      rintro rfl
      rw [Pool.moved_self, Pc.api.injEq] at hq
      subst hq
      rw [Pool.moved_self] at hrefusing
      have hfit := hs.seated.fits (.api n')
      rw [hp'] at hfit
      exact (hP _ hp' (ApiPc.refusing_next hn hfit hk hrefusing)).step hst
    | shut n' x hw hp' hn hk =>
      refine hmoved rfl ?_
      rintro rfl
      rw [Pool.moved_self] at hq
      cases hw <;> cases hq
    | destroy n' x hp' hn hfrom hto hframe hk =>
      refine hmoved rfl ?_
      rintro rfl
      rw [Pool.moved_self] at hq
      cases hq
    | worker | sup | helper => exact hstay (Pool.moved_of_ne (by simp))
  · rintro q hq hrefusing
    cases hq
    exact hrefusing.elim

end Run

/-! ## What the reported value counts -/

section Drops

variable {c : Config} {s : Pool} {now : Nat}

/-- No call of the producer's side is on its way. -/
def Pool.AtRest (s : Pool) : Prop := s.Every Pc.resting

/-- The reported value is the number of calls that came back with -1, and of frames that the drain
took. -/
def Pool.DropsComplete (s : Pool) : Prop :=
  ∃ k : Nat, Counted (fun n ↦ (s.thr (.api n)).pc.rejected = true) k ∧
    s.reported = k + s.ctl.drained.length

theorem Pool.AtRest.turned (h : s.AtRest) (n : Nat) :
    s.turned n = (s.thr (.api n)).pc.rejected := by
  rw [Pool.turned]
  cases hpc : (s.thr (.api n)).pc with
  | api p =>
    have hp := h n
    rw [hpc] at hp
    cases p with
    | idle | claimed j pos | done rc slot | read v => rfl
    | _ => cases hp
  | _ => rfl

/-- **Drop accounting.**  With no call on its way, `DropsComplete` holds exactly when no claim of
the run, a keyed submission's included, has found its ring closed.  It is about the value that the
readers report; a call comes back with -1 only from a closed ring; and the drained frames are those
that have left their ring without a call of `process`, each once. -/
theorem drops_complete {es : List Label} (hes : exec (Pool.step c) (Pool.init c now) es = some s)
    (hrest : s.AtRest) :
    (s.DropsComplete ↔
      ∀ t e t', Occurs (Pool.step c) (Pool.init c now) es t e t' → t.missed e = false) ∧
    (∀ n f, f = .drops ∨ f = .metrics → (s.thr (.api n)).pc = .api .idle →
      ∃ s', exec (Pool.step c) s (.call n true f :: turns (.api n) 4) = some s' ∧
        (s'.thr (.api n)).pc = .api (.read s.reported)) ∧
    (∀ n, (s.thr (.api n)).pc.rejected = true → s.Shunned c now n) ∧
    s.ctl.drained.Nodup ∧
    ∀ i q, (i, q) ∈ s.ctl.drained ↔ q < (s.ring i).dequeuePos ∧ q ∉ started (s.ctl.w i).events ∧
      ∀ a, s.inHand a i ≠ some q := by
  have hrun := exec_steps hes
  have hs := Sound.run hrun
  have hledger := fun i ↦ Ledger.run hrun i
  have htallied : s.ctl.Tallied := hrun.invariant_under (P := fun s ↦ s.ctl.Tallied)
    (fun _ ht ↦ (Sound.run ht).seated) (fun _ _ _ ht _ h _ hst ↦ Pool.step_tallied ht h hst) rfl
  refine ⟨?_, fun n f ↦ Pool.read_reported hs.seated, fun n hn ↦ ?_, Ctl.drained_nodup hledger,
    fun i q ↦ ?_⟩
  · have hrecorded := (Pool.Recorded.exec hes).congr
      (Q := fun n ↦ (s.thr (.api n)).pc.rejected = true) fun n ↦ by rw [hrest.turned n]
    have hzero := tally_eq_zero (w := fun t e _ ↦ (Pool.missed t e).toNat) hes
    simp only [Bool.toNat_eq_zero] at hzero
    rw [← hzero, Pool.DropsComplete, Pool.reported, htallied]
    constructor
    · rintro ⟨k, hk, hsum⟩
      have hsame := hk.unique hrecorded
      omega
    · intro hnone
      rw [hnone] at hrecorded
      exact ⟨s.dat.dropped, by simpa using hrecorded, rfl⟩
  · cases hpc : (s.thr (.api n)).pc with
    | api p =>
      rw [hpc] at hn
      refine Pool.refused_closed hrun hpc ?_
      cases p with
      | done rc slot =>
        show rc = -1
        simpa [Pc.rejected] using hn
      | _ => cases hn
    | _ =>
      rw [hpc] at hn
      cases hn
  · obtain ⟨ph, hl⟩ := hledger i
    exact hl.mem_drained q

/-- A submission has passed its tests when shutdown, at its deadline, closes the ring. -/
def submitThenStop : List Label :=
  .call 1 true (.submit false (.bare 0)) :: turns (.api 1) 9 ++
    .shutdown 0 false :: turns (.api 0) 6 ++ [.tick 10000000] ++ turns (.api 0) 9 ++
    turns (.api 1) 5

/-- It is counted. -/
theorem drops_complete_submit : ∃ s,
    exec (Pool.step .small) (Pool.init .small 0) submitThenStop = some s ∧
    (s.thr (.api 1)).pc = .api (.done (-1) none) ∧ s.reported = 1 ∧ s.DropsComplete := by
  have hrun : (exec (Pool.step .small) (Pool.init .small 0) submitThenStop).any (fun s ↦
      decide ((s.thr (.api 1)).pc = .api (.done (-1) none) ∧ s.reported = 1 ∧
        s.EveryBelow 2 Pc.resting)) = true := by decide +kernel
  obtain ⟨s, hs, hP⟩ := exec_any hrun
  obtain ⟨hdone, hone, hrest⟩ := of_decide_eq_true hP
  have hrun₂ : Steps (Pool.step .small) (fun _ e ↦ e.below 2 = true) (Pool.init .small 0) s :=
    exec_steps_of hs fun _ ↦ by decide
  have hidle : s.IdleFrom 2 := .run (fun _ _ h ↦ h) hrun₂
  have hmissed : tally (Pool.step .small) (fun t e _ ↦ (Pool.missed t e).toNat) (Pool.init .small 0)
      submitThenStop = 0 := by decide +kernel
  refine ⟨s, hs, hdone, hone, (drops_complete hs (hrest.every hidle rfl)).1.mpr fun t e t' ho ↦ ?_⟩
  exact Bool.toNat_eq_zero.mp ((tally_eq_zero hs).mp hmissed t e t' ho)

/-- A claim has passed its tests when shutdown closes the ring. -/
def claimThenStop : List Label :=
  .call 1 true (.claim false 0) :: turns (.api 1) 5 ++
    .shutdown 0 false :: turns (.api 0) 24 ++ turns (.worker 0 0) 10 ++ turns (.api 0) 6 ++
    turns (.helper 0) 2 ++ turns (.api 0) 21 ++ turns (.api 1) 3

/-- It comes back with -1, and nothing is counted. -/
theorem claim_unrecorded : ∃ s,
    exec (Pool.step .small) (Pool.init .small 0) claimThenStop = some s ∧
    (s.thr (.api 0)).pc = .shut (.done 0) ∧ (s.thr (.api 1)).pc = .api (.done (-1) none) ∧
    s.AtRest ∧ s.reported = 0 ∧ ¬ s.DropsComplete := by
  have hrun : (exec (Pool.step .small) (Pool.init .small 0) claimThenStop).any (fun s ↦
      decide ((s.thr (.api 0)).pc = .shut (.done 0) ∧ (s.thr (.api 1)).pc = .api (.done (-1) none) ∧
        s.EveryBelow 2 Pc.resting ∧ s.reported = 0)) = true := by decide +kernel
  obtain ⟨s, hs, hP⟩ := exec_any hrun
  obtain ⟨hshut, hdone, hrest, hnone⟩ := of_decide_eq_true hP
  have hrun₂ : Steps (Pool.step .small) (fun _ e ↦ e.below 2 = true) (Pool.init .small 0) s :=
    exec_steps_of hs fun _ ↦ by decide
  have hidle : s.IdleFrom 2 := .run (fun _ _ h ↦ h) hrun₂
  refine ⟨s, hs, hshut, hdone, hrest.every hidle rfl, hnone, ?_⟩
  rintro ⟨k, hk, hsum⟩
  have hpos := hk.pos (a := 1) (by rw [hdone]; rfl)
  omega

end Drops

end Awp
