import Mathlib.Data.List.Permutation
import AsyncWorkerPool.Pool.Admission

/-!
# Routing — which worker a frame goes to

`awp_submit`, `awp_shard_of`, `awp_submit_keyed` and the callers of `awp_claim_frame` each compute a
shard.  What they compute is compared as functions of the configuration and the arguments; that a
call ends up on the shard it computes is `call_shard`.
-/

open Foundation

namespace Awp

/-! ## Calls end up where they aim -/

section Runs

variable {c : Config} {now : Nat} {s₀ s₁ s₂ : Pool} {n : Nat}

/-- The shard and the position that the call has reserved. -/
def ApiPc.slot : ApiPc → Option (Nat × Nat)
  | .activate j pos | .fill j pos _ | .claimed j pos | .publish j pos | .submitted j pos =>
    some (j.sh, pos)
  | .deactivate _ _ slot | .leave _ _ slot | .done _ slot => slot
  | _ => none

theorem ApiPc.Within.slot {i : Nat} {P : Nat → Prop} {p : ApiPc} (h : p.Within c i P)
    {x : Nat × Nat} (hx : p.slot = some x) : x.1 = i := by
  cases p with
  | activate j pos | fill j pos ws | claimed j pos | publish j pos | submitted j pos =>
    cases hx
    exact h.1
  | deactivate j rc slot | leave j rc slot => exact (h.2 x hx).1
  | done rc slot => exact (h x hx).1
  | _ => cases hx

def Pool.slot (s : Pool) (n : Nat) : Option (Nat × Nat) :=
  match (s.thr (.api n)).pc with
  | .api p => p.slot
  | _ => none

/-- In some run, the call has reserved a position on shard `i`. -/
def Config.Reserves (c : Config) (f : ApiCall) (i : Nat) : Prop :=
  ∃ now s₀ s₁ s₂ n pos, Steps (Pool.step c) anyStep (Pool.init c now) s₀ ∧
    s₀.step c (.call n true f) = some s₁ ∧ Steps (Pool.step c) anyStep s₁ s₂ ∧
    s₂.slot n = some (i, pos)

/-- In some run, `awp_shard_of` has returned `v`. -/
def Config.Names (c : Config) (a : Args) (v : Nat) : Prop :=
  ∃ now s₀ s₁ s₂ n, Steps (Pool.step c) anyStep (Pool.init c now) s₀ ∧
    s₀.step c (.call n true (.shardOf a)) = some s₁ ∧ Steps (Pool.step c) anyStep s₁ s₂ ∧
    (s₂.thr (.api n)).pc = .api (.read v)

/-- A call reserves its position on the shard it is for. -/
theorem Config.Reserves.shard {f : ApiCall} {i k : Nat} (h : c.Reserves f i)
    (hf : f.shard c = some k) : i = k := by
  obtain ⟨now, s₀, s₁, s₂, n, pos, hrun, hcall, hrun₁, hslot⟩ := h
  have hs₀ := Sound.run hrun
  obtain ⟨p, hp, hw⟩ :=
    ((Tracked.start hs₀ hcall (ApiCall.start_shard hf)).run (hs₀.step hcall) hrun₁).call
  rw [Pool.slot, hp] at hslot
  exact hw.slot hslot

/-- A schedule that starts with the call shows where it reserves. -/
theorem Config.Reserves.of_exec {f : ApiCall} {i : Nat} (now n : Nat) (as : List Label)
    (h : (exec (Pool.step c) (Pool.init c now) (.call n true f :: as)).any
      (fun s ↦ (s.slot n).any (·.1 = i)) = true) : c.Reserves f i := by
  obtain ⟨s, hs, hP⟩ := exec_any h
  rw [exec, Option.bind_eq_some_iff] at hs
  obtain ⟨s₁, hcall, hrest⟩ := hs
  rw [Option.any_eq_true] at hP
  obtain ⟨⟨j, pos⟩, hslot, hj⟩ := hP
  rw [decide_eq_true_eq] at hj
  exact ⟨now, _, s₁, s, n, pos, .refl _, hcall, exec_steps hrest, by rw [hslot, ← hj]⟩

theorem Config.Names.of_exec {a : Args} {v : Nat} (now n : Nat) (as : List Label)
    (h : (exec (Pool.step c) (Pool.init c now) (.call n true (.shardOf a) :: as)).any
      (fun s ↦ (s.thr (.api n)).pc = .api (.read v)) = true) : c.Names a v := by
  obtain ⟨s, hs, hP⟩ := exec_any h
  rw [exec, Option.bind_eq_some_iff] at hs
  obtain ⟨s₁, hcall, hrest⟩ := hs
  exact ⟨now, _, s₁, s, n, .refl _, hcall, exec_steps hrest, by simpa using hP⟩

/-- The call is `awp_shard_of` on a shard it has computed. -/
def ApiPc.Reports (v : Nat) : ApiPc → Prop
  | .readEnter (.shardOf w) | .readLeave w | .read w => w = v
  | _ => False

theorem ApiPc.Reports.next {m : Ctl} {d d' : Dat} {l : Loc Nat Nat} {x : Choice} {k : Cmd} {v : Nat}
    {p p' : ApiPc} (hn : p.next c m d l x = some (d', p', k)) (h : p.Reports v) : p'.Reports v := by
  cases p with
  | readEnter r =>
    cases r with
    | shardOf w =>
      obtain ⟨rfl, rfl, rfl⟩ := outcome_inj hn
      exact h
    | _ => cases h
  | readLeave w =>
    obtain ⟨rfl, rfl, rfl⟩ := outcome_inj hn
    exact h
  | read w => cases hn
  | _ => cases h

/-- `awp_shard_of` reports what `awp_compute_shard` computes. -/
theorem shardOf_reports {a : Args} {v : Nat} (h : Sound c s₀)
    (hcall : s₀.step c (.call n true (.shardOf a)) = some s₁)
    (hrun : Steps (Pool.step c) anyStep s₁ s₂) (hread : (s₂.thr (.api n)).pc = .api (.read v)) :
    v = c.computeShard a.feed a.symbol a.flags := by
  have hstart : ∃ p, (s₁.thr (.api n)).pc = .api p ∧
      p.Reports (c.computeShard a.feed a.symbol a.flags) := by
    rcases Pool.step_cases hcall with ⟨t, he, -⟩ | ⟨n', pc, hidle, hpc, rfl⟩ |
      ⟨b, x, spurious, r, l, he, -⟩ | ⟨b, x, m, d, pc, k, sh, l, he, -⟩
    · cases he
    · rcases hpc with ⟨pool', f', he, rfl⟩ | ⟨tls, he, -⟩ | ⟨he, -⟩ <;> cases he
      exact ⟨.readEnter (.shardOf (c.computeShard a.feed a.symbol a.flags)),
        by simp only [Function.update_self]; rfl, rfl⟩
    · cases he
    · cases he
  have hinv := hrun.invariant
    (P := fun s ↦ Sound c s ∧ ∃ p, (s.thr (.api n)).pc = .api p ∧
      p.Reports (c.computeShard a.feed a.symbol a.flags)) ?_ ⟨h.step hcall, hstart⟩
  · obtain ⟨-, p, hp, hrep⟩ := hinv
    rw [hread, Pc.api.injEq] at hp
    subst hp
    exact hrep
  · rintro s e s' ⟨hs, p, hp, hrep⟩ - hst
    refine ⟨hs.step hst, ?_⟩
    rcases Pool.step_cases hst with ⟨t, -, rfl⟩ | ⟨n', pc, hidle, -, rfl⟩ |
      ⟨b, x, spurious, r, l, -, -, -, -, -, rfl⟩ | ⟨b, x, m, d, pc, k, sh, l, -, -, -, hnext, -, rfl⟩
    · exact ⟨p, hp, hrep⟩
    · have hne : Agent.api n ≠ .api n' := by
        rintro he
        rw [← he, hp] at hidle
        cases hidle
        exact hrep
      exact ⟨p, by simpa only [Function.update_of_ne hne] using hp, hrep⟩
    · refine ⟨p, ?_, hrep⟩
      by_cases hb : Agent.api n = b
      · rw [← hb]
        simpa only [Function.update_self] using hp
      · simpa only [Function.update_of_ne hb] using hp
    · by_cases hb : Agent.api n = b
      · subst hb
        simp only [Pool.next, hp, Option.map_eq_some_iff, Prod.mk.injEq] at hnext
        obtain ⟨⟨d', p', k'⟩, hn, rfl, rfl, rfl, rfl⟩ := hnext
        exact ⟨p', by simp only [Function.update_self], hrep.next hn⟩
      · exact ⟨p, by simpa only [Function.update_of_ne hb] using hp, hrep⟩

theorem Config.Names.shard {a : Args} {v : Nat} (h : c.Names a v) :
    v = c.computeShard a.feed a.symbol a.flags := by
  obtain ⟨now, s₀, s₁, s₂, n, hrun, hcall, hrun₁, hread⟩ := h
  exact shardOf_reports (Sound.run hrun) hcall hrun₁ hread

end Runs

/-! ## The shard functions -/

section Shard

variable (c : Config) (feed symbol : Option CString) (flags : UInt32)

/-- The frame goes to the broadcast workers. -/
def Config.isBroadcast : Bool :=
  0 < c.nBroadcastWorkers && ((flags &&& frameBroadcast) != 0 || c.feedIsBroadcast feed)

theorem Config.nShardWorkers_pos : 0 < c.nShardWorkers := Nat.sub_pos_of_lt c.broadcast_lt

theorem Config.computeShard_broadcast (h : c.isBroadcast feed flags = true) :
    c.computeShard feed symbol flags = (hashKey feed (some .empty)).toNat % c.nBroadcastWorkers := by
  simp only [Config.isBroadcast, Bool.and_eq_true, decide_eq_true_eq] at h
  rw [Config.computeShard, if_pos ⟨h.2, h.1⟩]

theorem Config.computeShard_other (h : c.isBroadcast feed flags = false) :
    c.computeShard feed symbol flags =
      c.nBroadcastWorkers + (hashKey feed symbol).toNat % c.nShardWorkers := by
  simp only [Config.isBroadcast, Bool.and_eq_false_iff, decide_eq_false_iff_not] at h
  rw [Config.computeShard, if_neg, if_neg c.nShardWorkers_pos.ne']
  rintro ⟨hb, hn⟩
  rcases h with h | h
  · exact h hn
  · exact absurd hb (by rw [h]; decide)

theorem Config.computeShard_lt : c.computeShard feed symbol flags < c.nWorkers := by
  have hlt := c.broadcast_lt
  cases hb : c.isBroadcast feed flags with
  | true =>
    rw [c.computeShard_broadcast _ _ _ hb]
    have hpos : 0 < c.nBroadcastWorkers := by
      simp only [Config.isBroadcast, Bool.and_eq_true, decide_eq_true_eq] at hb
      exact hb.1
    exact (Nat.mod_lt _ hpos).trans hlt
  | false =>
    rw [c.computeShard_other _ _ _ hb]
    have hmod := Nat.mod_lt (hashKey feed symbol).toNat c.nShardWorkers_pos
    simp only [Config.nShardWorkers] at hmod ⊢
    omega

theorem Config.clampShard_of_lt {i : Nat} (h : i < c.nWorkers) : c.clampShard i = i := by
  rw [Config.clampShard, if_neg (by omega)]

/-- The broadcast partition is `[0, n_broadcast_workers)`. -/
theorem Config.computeShard_partition :
    c.computeShard feed symbol flags < c.nBroadcastWorkers ↔ c.isBroadcast feed flags = true := by
  cases hb : c.isBroadcast feed flags with
  | true =>
    rw [c.computeShard_broadcast _ _ _ hb]
    simp only [Config.isBroadcast, Bool.and_eq_true, decide_eq_true_eq] at hb
    simpa using Nat.mod_lt _ hb.1
  | false =>
    rw [c.computeShard_other _ _ _ hb]
    simp

theorem hashKey_getD : hashKey (some (feed.getD .empty)) (some (symbol.getD .empty)) =
    hashKey feed symbol := by
  cases feed <;> cases symbol <;> rfl

end Shard

/-! ## `awp_submit` and `awp_shard_of` -/

/-- A frame submitted to worker `i`, where `awp_shard_of` names `v`: the two are one, in the part of
the workers that feed and flags call for. -/
structure Config.Routed (c : Config) (a : Args) (i v : Nat) : Prop where
  same : i = v
  lt : v < c.nWorkers
  broadcast : c.isBroadcast a.feed a.flags = true →
    v < c.nBroadcastWorkers ∧ ∀ symbol, c.computeShard a.feed symbol a.flags = v
  other : c.isBroadcast a.feed a.flags = false → c.nBroadcastWorkers ≤ v

/-- The `NULL` feed becomes the empty string before the broadcast list is looked at, and only in
`awp_submit`: the two agree but for a `NULL` feed when the list has the empty string. -/
theorem Config.routed_iff (c : Config) (a : Args) :
    c.Routed a (c.shardOf a.labelled) (c.computeShard a.feed a.symbol a.flags) ↔
      ¬ (a.feed = none ∧ 0 < c.nBroadcastWorkers ∧ a.flags &&& frameBroadcast = 0 ∧
        CString.empty ∈ c.broadcastFeeds) := by
  have hshard : c.shardOf a.labelled =
      c.computeShard (some (a.feed.getD .empty)) (some (a.symbol.getD .empty)) a.flags :=
    c.clampShard_of_lt (c.computeShard_lt _ _ _)
  have hlist : c.feedIsBroadcast (some .empty) = true ↔ CString.empty ∈ c.broadcastFeeds := by
    simp [Config.feedIsBroadcast]
  constructor
  · rintro h ⟨hfeed, hpos, hflags, hmem⟩
    have hsub : c.isBroadcast (some (a.feed.getD .empty)) a.flags = true := by
      rw [hfeed]
      simpa [Config.isBroadcast, hpos] using Or.inr (hlist.mpr hmem)
    have hof : c.isBroadcast a.feed a.flags = false := by
      rw [hfeed]
      simp [Config.isBroadcast, hflags, Config.feedIsBroadcast]
    have hlt := (c.computeShard_partition _ (some (a.symbol.getD .empty)) _).mpr hsub
    rw [← hshard, h.same] at hlt
    exact absurd (h.other hof) (Nat.not_le.mpr hlt)
  · intro h
    have hbc : c.isBroadcast (some (a.feed.getD .empty)) a.flags = c.isBroadcast a.feed a.flags := by
      cases hfeed : a.feed with
      | some f => rfl
      | none =>
        by_cases hpos : 0 < c.nBroadcastWorkers
        · by_cases hflags : a.flags &&& frameBroadcast = 0
          · have hno : c.feedIsBroadcast (some .empty) = false := by
              by_contra hyes
              exact h ⟨hfeed, hpos, hflags, hlist.mp (by simpa using hyes)⟩
            rw [Config.isBroadcast, Option.getD_none, hno]
            rfl
          · have hset : ((a.flags &&& frameBroadcast) != 0) = true := by simpa using hflags
            rw [Config.isBroadcast, Config.isBroadcast, hset, Bool.true_or, Bool.true_or]
        · rw [Config.isBroadcast, Config.isBroadcast, decide_eq_false hpos, Bool.false_and,
            Bool.false_and]
    refine ⟨?_, c.computeShard_lt _ _ _, fun hb ↦ ⟨(c.computeShard_partition _ _ _).mpr hb, fun g ↦ ?_⟩,
      fun hb ↦ ?_⟩
    · rw [hshard]
      cases hb : c.isBroadcast a.feed a.flags with
      | true =>
        rw [c.computeShard_broadcast _ _ _ hb, c.computeShard_broadcast _ _ _ (hbc.trans hb),
          ← hashKey_getD a.feed (some .empty)]
        rfl
      | false =>
        rw [c.computeShard_other _ _ _ hb, c.computeShard_other _ _ _ (hbc.trans hb), hashKey_getD]
    · rw [c.computeShard_broadcast _ _ _ hb, c.computeShard_broadcast _ _ _ hb]
    · rw [c.computeShard_other _ _ _ hb]
      exact Nat.le_add_right _ _

/-- **`awp_submit` and `awp_shard_of` route alike** but for a `NULL` feed when the empty string is
listed. -/
theorem routing_agrees {c : Config} {a : Args} {tls : Bool} {i v : Nat}
    (hsubmit : c.Reserves (.submit tls a) i) (hname : c.Names a v) :
    c.Routed a i v ↔ ¬ (a.feed = none ∧ 0 < c.nBroadcastWorkers ∧ a.flags &&& frameBroadcast = 0 ∧
      CString.empty ∈ c.broadcastFeeds) := by
  have hi : i = c.shardOf a.labelled := hsubmit.shard rfl
  rw [hi, hname.shard]
  exact c.routed_iff a

/-- A labelled frame without payload. -/
def Args.labels (feed symbol : CString) (flags : UInt32) : Args :=
  ⟨some feed, some symbol, none, 0, flags⟩

/-- A frame of the feed `a`, whose key is odd. -/
def Args.feedA : Args := .labels ⟨[97], by simp⟩ .empty 0

/-- Two workers, the first of them for the broadcast feed `""`. -/
def Config.blankFeed : Config :=
  { Config.small with
    nWorkers := 2
    nBroadcastWorkers := 1
    broadcastFeeds := [.empty]
    broadcast_lt := by decide }

theorem submit_blankFeed : Config.blankFeed.Reserves (.submit false (.bare 0)) 0 :=
  .of_exec 0 0 (turns (.api 0) 30) (by decide_cbv)

theorem shardOf_blankFeed : Config.blankFeed.Names (.bare 0) 1 :=
  .of_exec 0 0 (turns (.api 0) 2) (by decide)

theorem routing_disagrees : ∃ r c a i v, RawConfig.accept r = some c ∧
    c.Reserves (.submit false a) i ∧ c.Names a v ∧ ¬ c.Routed a i v :=
  ⟨⟨2, 2, 1, .mpsc, 10, 0, 0, false, false, true, false, 1, [.empty]⟩, .blankFeed, .bare 0, 0, 1,
    rfl, submit_blankFeed, shardOf_blankFeed, fun h ↦ absurd h.same (by decide)⟩

/-- Five workers, the first two of them for the broadcast feed `q`. -/
def Config.listedFeed : Config :=
  { Config.small with
    nWorkers := 5
    nBroadcastWorkers := 2
    broadcastFeeds := [⟨[113], by simp⟩]
    broadcast_lt := by decide }

/-- A frame of the listed feed is routed by both to the second broadcast worker, one of another feed
and one without labels to shard workers. -/
theorem routing_agrees_listedFeed : Config.listedFeed.Routed (.labels ⟨[113], by simp⟩ .empty 0) 1 1 ∧
    Config.listedFeed.Routed .feedA 4 4 ∧ Config.listedFeed.Routed (.bare 0) 2 2 := by
  have hsubmit : Config.listedFeed.Reserves (.submit false (.labels ⟨[113], by simp⟩ .empty 0)) 1 :=
    .of_exec 0 0 (turns (.api 0) 30) (by decide_cbv)
  have hname : Config.listedFeed.Names (.labels ⟨[113], by simp⟩ .empty 0) 1 :=
    .of_exec 0 0 (turns (.api 0) 2) (by decide)
  have hsubmit' : Config.listedFeed.Reserves (.submit false .feedA) 4 :=
    .of_exec 0 0 (turns (.api 0) 30) (by decide_cbv)
  have hname' : Config.listedFeed.Names .feedA 4 :=
    .of_exec 0 0 (turns (.api 0) 2) (by decide)
  have hsubmit'' : Config.listedFeed.Reserves (.submit false (.bare 0)) 2 :=
    .of_exec 0 0 (turns (.api 0) 30) (by decide_cbv)
  have hname'' : Config.listedFeed.Names (.bare 0) 2 :=
    .of_exec 0 0 (turns (.api 0) 2) (by decide)
  exact ⟨(routing_agrees hsubmit hname).mpr (by decide), (routing_agrees hsubmit' hname').mpr
    (by decide), (routing_agrees hsubmit'' hname'').mpr (by decide)⟩

/-! ## The fast routes -/

/-- When `h % n` is the worker that `b + h % (n - b)` is. -/
theorem mod_route_iff {b n h : Nat} (hb : b < n) :
    h % n = b + h % (n - b) ↔ b ≤ h % n ∧ n - b ∣ b * (h / n + 1) := by
  obtain ⟨m, rfl⟩ : ∃ m, n = m + b := ⟨n - b, by omega⟩
  rw [Nat.add_sub_cancel]
  have hdiv := Nat.div_add_mod h (m + b)
  have hlt := Nat.mod_lt h (Nat.zero_lt_of_lt hb)
  generalize h / (m + b) = q at hdiv ⊢
  generalize h % (m + b) = r at hdiv hlt ⊢
  have hsplit : (m + b) * q + b = m * q + b * (q + 1) := by
    rw [Nat.add_mul, Nat.mul_add_one]
    omega
  constructor
  · intro hr
    refine ⟨by omega, ?_⟩
    have hdvd : m ∣ (m + b) * q + b := by
      have h₁ := Nat.dvd_sub_mod (n := m) h
      have h₂ : h - h % m = (m + b) * q + b := by omega
      exact h₂ ▸ h₁
    rw [hsplit] at hdvd
    exact (Nat.dvd_add_right (Dvd.intro q rfl)).mp hdvd
  · rintro ⟨hbr, hdvd⟩
    have hh : h = m * q + b * (q + 1) + (r - b) := by omega
    have hsum : m ∣ m * q + b * (q + 1) := Nat.dvd_add (Dvd.intro q rfl) hdvd
    have hmod : h % m = r - b := by
      rw [hh, Nat.add_mod, Nat.mod_eq_zero_of_dvd hsum, Nat.zero_add, Nat.mod_mod,
        Nat.mod_eq_of_lt (by omega)]
    omega

section Fast

variable {c : Config} {a : Args} {feed symbol : CString}

theorem Config.shardOf_labelled (hfeed : a.feed = some feed) (hsymbol : a.symbol = some symbol) :
    c.shardOf a.labelled = c.computeShard a.feed a.symbol a.flags := by
  rw [Config.shardOf, Args.labelled, hfeed, hsymbol]
  exact c.clampShard_of_lt (c.computeShard_lt _ _ _)

theorem Config.keyedShard_lt (key : UInt64) : c.keyedShard key < c.nWorkers := by
  have hmod := Nat.mod_lt key.toNat c.nShardWorkers_pos
  have hlt := c.broadcast_lt
  rw [Config.keyedShard, if_neg c.nShardWorkers_pos.ne']
  simp only [Config.nShardWorkers] at hmod ⊢
  omega

/-- The key leads to the same worker but for a broadcast frame. -/
theorem Config.keyedShard_iff : c.keyedShard (hashKey a.feed a.symbol) =
    c.computeShard a.feed a.symbol a.flags ↔ c.isBroadcast a.feed a.flags = false := by
  rw [Config.keyedShard, if_neg c.nShardWorkers_pos.ne']
  cases hb : c.isBroadcast a.feed a.flags with
  | true =>
    have hlt := (c.computeShard_partition a.feed a.symbol a.flags).mpr hb
    simp only [Bool.true_eq_false, iff_false]
    omega
  | false => simp [c.computeShard_other _ _ _ hb]

/-- **The fast routes and the plain one**: a frame with the key of its labels, submitted, submitted
by key, and claimed for `awp_shard_of` and for `awp_hash_key % n_workers`. -/
theorem fast_routes_agree {tls tls₁ tls₂ tls₃ : Bool} {i j k l v : Nat}
    (hfeed : a.feed = some feed) (hsymbol : a.symbol = some symbol)
    (hsubmit : c.Reserves (.submit tls a) i)
    (hkeyed : c.Reserves (.keyed tls₁ (hashKey a.feed a.symbol) a) j)
    (hname : c.Names a v) (hclaim : c.Reserves (.claim tls₂ v) k)
    (hmod : c.Reserves (.claim tls₃ ((hashKey a.feed a.symbol).toNat % c.nWorkers)) l) :
    (j = i ∧ k = i ∧ l = i) ↔
      c.nBroadcastWorkers = 0 ∨ c.isBroadcast a.feed a.flags = false ∧
        c.nBroadcastWorkers ≤ (hashKey a.feed a.symbol).toNat % c.nWorkers ∧
        c.nShardWorkers ∣
          c.nBroadcastWorkers * ((hashKey a.feed a.symbol).toNat / c.nWorkers + 1) := by
  have hi : i = c.computeShard a.feed a.symbol a.flags :=
    (hsubmit.shard rfl).trans (c.shardOf_labelled hfeed hsymbol)
  have hj : j = c.keyedShard (hashKey a.feed a.symbol) :=
    (hkeyed.shard rfl).trans (c.clampShard_of_lt (c.keyedShard_lt _))
  have hk : k = i := by
    rw [hclaim.shard rfl, hname.shard, hi]
    exact c.clampShard_of_lt (c.computeShard_lt _ _ _)
  have hl : l = (hashKey a.feed a.symbol).toNat % c.nWorkers :=
    (hmod.shard rfl).trans (c.clampShard_of_lt (Nat.mod_lt _ c.workers_pos))
  have hji : j = i ↔ c.isBroadcast a.feed a.flags = false := by
    rw [hj, hi]
    exact c.keyedShard_iff
  have hli : c.isBroadcast a.feed a.flags = false →
      (l = i ↔ c.nBroadcastWorkers ≤ (hashKey a.feed a.symbol).toNat % c.nWorkers ∧
        c.nShardWorkers ∣
          c.nBroadcastWorkers * ((hashKey a.feed a.symbol).toNat / c.nWorkers + 1)) := by
    intro hb
    rw [hl, hi, c.computeShard_other _ _ _ hb]
    exact mod_route_iff c.broadcast_lt
  constructor
  · rintro ⟨h₁, -, h₂⟩
    exact Or.inr ⟨hji.mp h₁, (hli (hji.mp h₁)).mp h₂⟩
  · rintro (h₀ | ⟨hb, hrest⟩)
    · -- without broadcast workers nothing is broadcast, and the two reductions are one
      have hb : c.isBroadcast a.feed a.flags = false := by rw [Config.isBroadcast, h₀]; rfl
      exact ⟨hji.mpr hb, hk, (hli hb).mpr (by rw [h₀]; exact ⟨Nat.zero_le _, by simp⟩)⟩
    · exact ⟨hji.mpr hb, hk, (hli hb).mpr hrest⟩

end Fast

/-- Every route takes it to the second worker. -/
theorem fast_routes_agree_feedA : ∃ i j k l v, Config.blankFeed.Reserves (.submit false .feedA) i ∧
    Config.blankFeed.Reserves (.keyed false (hashKey Args.feedA.feed Args.feedA.symbol) .feedA) j ∧
    Config.blankFeed.Names .feedA v ∧ Config.blankFeed.Reserves (.claim false v) k ∧
    j = i ∧ k = i ∧ l = i := by
  have hsubmit : Config.blankFeed.Reserves (.submit false .feedA) 1 :=
    .of_exec 0 0 (turns (.api 0) 30) (by decide_cbv)
  have hkeyed : Config.blankFeed.Reserves
      (.keyed false (hashKey Args.feedA.feed Args.feedA.symbol) .feedA) 1 :=
    .of_exec 0 0 (turns (.api 0) 14) (by decide_cbv)
  have hname : Config.blankFeed.Names .feedA 1 :=
    .of_exec 0 0 (turns (.api 0) 2) (by decide)
  have hclaim : Config.blankFeed.Reserves (.claim false 1) 1 :=
    .of_exec 0 0 (turns (.api 0) 12) (by decide_cbv)
  have hmod : Config.blankFeed.Reserves (.claim false
      ((hashKey Args.feedA.feed Args.feedA.symbol).toNat % Config.blankFeed.nWorkers)) 1 :=
    .of_exec 0 0 (turns (.api 0) 12) (by decide_cbv)
  exact ⟨1, 1, 1, 1, 1, hsubmit, hkeyed, hname, hclaim,
    (fast_routes_agree rfl rfl hsubmit hkeyed hname hclaim hmod).mpr (Or.inr (by decide_cbv))⟩

/-- A broadcast frame goes to the first worker, its key to the second. -/
theorem fast_routes_part : ∃ c a feed symbol i j k l v, a.feed = some feed ∧ a.symbol = some symbol ∧
    Config.Reserves c (.submit false a) i ∧
    c.Reserves (.keyed false (hashKey a.feed a.symbol) a) j ∧ c.Names a v ∧
    c.Reserves (.claim false v) k ∧
    c.Reserves (.claim false ((hashKey a.feed a.symbol).toNat % c.nWorkers)) l ∧
    ¬ (j = i ∧ k = i ∧ l = i) :=
  ⟨.blankFeed, .labels .empty .empty 1, .empty, .empty, 0, 1, 0, 0, 0, rfl, rfl,
    .of_exec 0 0 (turns (.api 0) 30) (by decide_cbv),
    .of_exec 0 0 (turns (.api 0) 14) (by decide_cbv),
    .of_exec 0 0 (turns (.api 0) 2) (by decide),
    .of_exec 0 0 (turns (.api 0) 12) (by decide_cbv),
    .of_exec 0 0 (turns (.api 0) 12) (by decide_cbv), by decide⟩

end Awp
