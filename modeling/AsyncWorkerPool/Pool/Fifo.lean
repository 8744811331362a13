import AsyncWorkerPool.Pool.Calls

/-!
# Fifo — positions of one shard are processed in the order of submission

The positions of a shard are processed in order (`Ledger`), and a call that begins after another
has returned gets a later position (`Tracked`).
-/

open Foundation

namespace Awp

section Serial

variable {onErr : Bool}

/-- The calls of `process` that have returned. -/
def Phase.finished : Phase → Nat
  | .between k => k
  | .processing p => p
  | .failed p _ | .handling p => p + 1

/-- What has been called has returned, but for the call under way. -/
theorem Serial.returned {events : List Event} {ph : Phase} (h : Serial onErr events ph) :
    ∀ q < ph.finished, ∃ rc, Event.returned q rc ∈ events := by
  induction events using List.reverseRecOn generalizing ph with
  | nil =>
    cases h
    exact fun q hq ↦ absurd hq (Nat.not_lt_zero q)
  | append_singleton events e ih =>
    simp only [Serial, List.foldlM_append, List.foldlM_cons, List.foldlM_nil, bind_pure] at h
    obtain ⟨ph₀, h₀, he⟩ := Option.bind_eq_some_iff.mp h
    have hold : ∀ q < ph₀.finished, ∃ rc, Event.returned q rc ∈ events ++ [e] := fun q hq ↦
      (ih h₀ q hq).imp fun rc hrc ↦ List.mem_append_left _ hrc
    intro q hq
    cases ph₀ <;> cases e <;> simp only [Phase.next, reduceCtorEq] at he <;> split at he <;>
      simp only [Option.some.injEq, reduceCtorEq] at he <;> subst he
    · rename_i hp
      exact hold q (hp ▸ hq)
    · rename_i p p' rc hp
      have hq' : q < p + 1 := by
        split at hq <;> exact hq
      rcases Nat.lt_succ_iff_lt_or_eq.mp hq' with hlt | rfl
      · exact hold q hlt
      · exact ⟨rc, by simp [hp]⟩
    · exact hold q hq
    · exact hold q hq

/-- Every prefix of a disciplined list of callbacks is one. -/
theorem Serial.prefix {pre post : List Event} {ph : Phase} (h : Serial onErr (pre ++ post) ph) :
    ∃ ph', Serial onErr pre ph' := by
  simp only [Serial, List.foldlM_append] at h
  obtain ⟨ph', h', -⟩ := Option.bind_eq_some_iff.mp h
  exact ⟨ph', h'⟩

/-- Before `process` is called for a frame, it has returned for all the frames before it. -/
theorem Serial.before {pre post : List Event} {p q : Nat} {ph : Phase}
    (h : Serial onErr (pre ++ .started p :: post) ph) (hq : q < p) :
    ∃ rc, Event.returned q rc ∈ pre := by
  rw [List.append_cons] at h
  obtain ⟨ph₁, h₁⟩ := h.prefix
  simp only [Serial, List.foldlM_append, List.foldlM_cons, List.foldlM_nil, bind_pure] at h₁
  obtain ⟨ph₀, h₀, he⟩ := Option.bind_eq_some_iff.mp h₁
  refine Serial.returned h₀ q ?_
  cases ph₀ <;> simp only [Phase.next, reduceCtorEq] at he
  split at he
  · rename_i hp
    exact hp ▸ hq
  · cases he

end Serial

/-- The arguments as `awp_submit` goes on with them. -/
def Args.labelled (a : Args) : Args :=
  { a with feed := some (a.feed.getD .empty), symbol := some (a.symbol.getD .empty) }

/-- The shard that a submission or a claim is for. -/
def ApiCall.shard (c : Config) : ApiCall → Option Nat
  | .submit _ a => some (c.shardOf a.labelled)
  | .claim _ shard => some (c.clampShard shard)
  | .keyed _ key _ => some (c.clampShard (c.keyedShard key))
  | .drops | .metrics | .shardOf _ => none

theorem ApiCall.start_shard {c : Config} {f : ApiCall} {pool : Bool} {i : Nat}
    (h : f.shard c = some i) (P : Nat → Prop) : (f.start c pool).Within c i P := by
  cases f <;> cases h <;> simp only [ApiCall.start] <;> repeat' split
  all_goals first | rfl | simp [ApiPc.Within]

/-- A call of `f` that begins at `s` has returned 0 at `s'`, with position `p` of shard `i`. -/
def Pool.Places (c : Config) (f : ApiCall) (i p : Nat) (s s' : Pool) : Prop :=
  ∃ n pool s₁, s.step c (.call n pool f) = some s₁ ∧ Steps (Pool.step c) anyStep s₁ s' ∧
    (s'.thr (.api n)).pc = .api (.done 0 (some (i, p)))

/-- Two submissions have the same key. -/
def Args.sameKey (a b : Args) : Prop :=
  a.feed.getD .empty = b.feed.getD .empty ∧ a.symbol.getD .empty = b.symbol.getD .empty ∧
    a.flags = b.flags

theorem Args.sameKey.shard {c : Config} {a b : Args} (h : a.sameKey b) (tls tls' : Bool) :
    (ApiCall.submit tls a).shard c = (ApiCall.submit tls' b).shard c := by
  simp only [ApiCall.shard, Config.shardOf, Args.labelled, h.1, h.2.1, h.2.2]

section Fifo

variable {c : Config} {now : Nat} {s₀ s₁ s₂ s₃ : Pool}

theorem Tracked.run {ok : Pool → Label → Prop} {n i lo : Nat} (h : Sound c s₀)
    (ht : Tracked c s₀ n i lo) (hrun : Steps (Pool.step c) ok s₀ s₁) : Tracked c s₁ n i lo :=
  (hrun.invariant (P := fun s ↦ Sound c s ∧ Tracked c s n i lo)
    (fun _ _ _ hs _ hst ↦ ⟨hs.1.step hst, hs.2.step hs.1 hst⟩) ⟨h, ht⟩).2

theorem Pool.Placed.run {ok : Pool → Label → Prop}
    (hrun : Steps (Pool.step c) ok (Pool.init c now) s₀) : s₀.Placed c :=
  hrun.invariant_under (P := Pool.Placed c) (fun _ ht ↦ Sound.run ht)
    (fun _ _ _ hs _ h _ hst ↦ h.step hs hst) (.init now)

/-- A call that begins when another on the same shard has returned gets a later position. -/
theorem call_order {f g : ApiCall} {k i p j q : Nat}
    (hrun : Steps (Pool.step c) anyStep (Pool.init c now) s₀) (hplace : s₀.Places c f i p s₁)
    (hrun' : Steps (Pool.step c) anyStep s₁ s₂) (hplace' : s₂.Places c g j q s₃)
    (hf : f.shard c = some k) (hg : g.shard c = some k) : i = k ∧ j = k ∧ p < q := by
  obtain ⟨n, pool, t, hcall, hrun₁, hdone⟩ := hplace
  obtain ⟨m, pool', t', hcall', hrun₃, hdone'⟩ := hplace'
  have hs₀ := Sound.run hrun
  have hrun₁' : Steps (Pool.step c) anyStep (Pool.init c now) s₁ :=
    (hrun.tail trivial hcall).trans hrun₁
  have hrun₂ := hrun₁'.trans hrun'
  have hs₂ := Sound.run hrun₂
  -- the first call: its shard, and the place of its position
  obtain ⟨p₁, hp₁, hw₁⟩ :=
    ((Tracked.start hs₀ hcall (ApiCall.start_shard hf)).run (hs₀.step hcall) hrun₁).call
  rw [hdone, Pc.api.injEq] at hp₁
  subst hp₁
  have hi : i = k := (hw₁ (i, p) rfl).1
  have hp : p < (s₂.ring i).enqueuePos := by
    have hlt : p < (s₁.ring i).enqueuePos := by
      rcases Pool.Placed.run hrun₁' n _ hdone with hidle | ⟨k', hw⟩
      · cases hidle
      · obtain ⟨rfl, hlt⟩ := hw (i, p) rfl
        exact hlt
    exact hlt.trans_le (hrun'.invariant (P := fun s ↦ Sound c s ∧
        (s₁.ring i).enqueuePos ≤ (s.ring i).enqueuePos)
      (fun _ _ _ hs _ hst ↦ ⟨hs.1.step hst, hs.2.trans (hs.1.enqueue_mono hst i)⟩)
      ⟨Sound.run hrun₁', le_rfl⟩).2
  -- the second call begins after that
  obtain ⟨p₂, hp₂, hw₂⟩ :=
    ((Tracked.start hs₂ hcall' (ApiCall.start_shard hg)).run (hs₂.step hcall') hrun₃).call
  rw [hdone', Pc.api.injEq] at hp₂
  subst hp₂
  obtain ⟨hj, hq⟩ := hw₂ (j, q) rfl
  exact ⟨hi, hj, lt_of_lt_of_le (hi ▸ hp) hq⟩

/-- **Per-shard serial FIFO of positions.**  Whatever supervisor, shutdown and producers do, the
callbacks of a shard never overlap and are for the positions 0, 1, 2, … in turn, with `on_error` once
after each failure; of two positions of one shard, one placed when the call for the other had
returned, the later is processed after `process` has returned for the earlier; and submissions of
one key are for one shard. -/
theorem shard_serial_fifo {s : Pool} (hrun : Steps (Pool.step c) anyStep (Pool.init c now) s) :
    (∀ i, ∃ ph, Serial c.onError (s.ctl.w i).events ph ∧
      started (s.ctl.w i).events = List.range ph.calls) ∧
    (∀ s₀ s₁ s₂ s₃ f g k i p j q, Steps (Pool.step c) anyStep (Pool.init c now) s₀ →
      s₀.Places c f i p s₁ → Steps (Pool.step c) anyStep s₁ s₂ → s₂.Places c g j q s₃ →
      Steps (Pool.step c) anyStep s₃ s → f.shard c = some k → g.shard c = some k →
      i = k ∧ j = k ∧ ∀ pre post, (s.ctl.w k).events = pre ++ .started q :: post →
        ∃ rc, Event.returned p rc ∈ pre) ∧
    ∀ a b tls tls', a.sameKey b →
      (ApiCall.submit tls a).shard c = (ApiCall.submit tls' b).shard c := by
  have hserial : ∀ i, ∃ ph, Serial c.onError (s.ctl.w i).events ph := fun i ↦ by
    obtain ⟨ph, hl⟩ := Ledger.run hrun i
    exact ⟨ph, hl.serial⟩
  refine ⟨fun i ↦ ?_, ?_, fun a b tls tls' h ↦ h.shard tls tls'⟩
  · obtain ⟨ph, hph⟩ := hserial i
    exact ⟨ph, hph, hph.started_eq⟩
  · intro s₀ s₁ s₂ s₃ f g k i p j q h₀ hplace h₁ hplace' _ hf hg
    obtain ⟨hi, hj, hpq⟩ := call_order h₀ hplace h₁ hplace' hf hg
    refine ⟨hi, hj, fun pre post he ↦ ?_⟩
    obtain ⟨ph, hph⟩ := hserial k
    rw [he] at hph
    exact hph.before hpq

end Fifo

end Awp
