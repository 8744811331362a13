import AsyncWorkerPool.Pool.Routing

/-!
# Contents — what a published frame holds

The stores of `awp_submit` and of `awp_submit_keyed` into the frame they have reserved, as functions
of what the slot held before; and that the frame published by a call is the result of its stores on
the slot, whatever the other parties do.
-/

open Foundation

namespace Awp

/-! ## Reading a frame -/

/-- The C string in an array of `n` bytes. -/
def cstr (n : Nat) (arr : Nat → UInt8) : List UInt8 := ((List.range n).map arr).takeWhile (· ≠ 0)

/-- What a consumer reads of a frame. -/
structure Content where
  feed : List UInt8
  symbol : List UInt8
  payload : List UInt8
  payloadLen : Nat
  flags : UInt32
  deriving DecidableEq

def Frame.content (f : Frame) : Content where
  feed := cstr (feedMax + 1) f.feed
  symbol := cstr (symbolMax + 1) f.symbol
  payload := (List.range f.payloadLen).map f.payload
  payloadLen := f.payloadLen
  flags := f.flags

theorem memcpy_range (dst : Nat → UInt8) (src : List UInt8) :
    (List.range src.length).map (memcpy dst src) = src := by
  refine List.ext_getElem (by simp) fun i h₁ h₂ ↦ ?_
  simp [memcpy, List.getD_eq_getElem?_getD, List.getElem?_eq_getElem h₂]

/-- A label that fits is read back whole: its terminator ends it. -/
theorem cstr_memcpy {s : CString} {n : Nat} (h : s.strlen ≤ n) (old : Nat → UInt8) :
    cstr (n + 1) (memcpy old (s.bytes ++ [0])) = s.bytes := by
  obtain ⟨k, rfl⟩ := Nat.exists_eq_add_of_le h
  have hrange : List.range (s.strlen + k + 1) =
      List.range (s.bytes ++ [0]).length ++ (List.range k).map ((s.bytes ++ [0]).length + ·) := by
    rw [← List.range_add]
    congr 1
    simp only [CString.strlen, List.length_append, List.length_singleton]
    omega
  rw [cstr, hrange, List.map_append, memcpy_range, List.append_assoc,
    List.takeWhile_append_of_pos fun b hb ↦ by simpa using s.noNul b hb]
  simp

/-! ## The stores of a call -/

/-- The frames agree but for the stamps `seq`, `submit_ns` and `shard`. -/
structure Frame.Like (f g : Frame) : Prop where
  feed : f.feed = g.feed
  symbol : f.symbol = g.symbol
  payload : f.payload = g.payload
  payloadLen : f.payloadLen = g.payloadLen
  flags : f.flags = g.flags

theorem Frame.Like.refl (f : Frame) : f.Like f := ⟨rfl, rfl, rfl, rfl, rfl⟩

theorem Frame.Like.content {f g : Frame} (h : f.Like g) : f.content = g.content := by
  simp only [Frame.content, h.feed, h.symbol, h.payload, h.payloadLen, h.flags]

theorem Frame.Like.write {f g : Frame} (h : f.Like g) (w : FrameWrite) :
    (f.write w).Like (g.write w) := by
  obtain ⟨h₁, h₂, h₃, h₄, h₅⟩ := h
  cases w <;> constructor <;> simp only [Frame.write, h₁, h₂, h₃, h₄, h₅]

/-- A store as far as the contents go. -/
def Fill.apply (f : Frame) : Fill → Frame
  | .write w => f.write w
  | .nextSeq | .stamp => f

/-- What the stores leave of a frame that held `old`. -/
def Frame.fillAll (old : Frame) (ws : List Fill) : Frame := ws.foldl Fill.apply old

/-- What the caller asks to be published. -/
def Args.content (a : Args) : Content where
  feed := (a.feed.getD .empty).bytes
  symbol := (a.symbol.getD .empty).bytes
  payload := (a.payload.getD []).take a.payloadLen
  payloadLen := a.payloadLen
  flags := a.flags

/-- The payload pointer is good for `payload_len` bytes. -/
def Args.Readable (a : Args) : Prop := ∀ bytes ∈ a.payload, a.payloadLen ≤ bytes.length

section Stores

variable {a : Args}

theorem Args.check_eq_zero : a.check = 0 ↔ (a.feed.getD .empty).strlen ≤ feedMax ∧
    (a.symbol.getD .empty).strlen ≤ symbolMax ∧ a.payloadLen ≤ payloadMax ∧
    (0 < a.payloadLen → a.payload ≠ none) := by
  rw [Args.check]
  split
  · simp only [e2big]
    omega
  · split
    · simp only [e2big]
      omega
    · split
      · simp only [einval, ne_eq]
        grind
      · grind

theorem Args.labelled_check : a.labelled.check = a.check := rfl

theorem Args.payload_map (hr : a.Readable) (hnull : 0 < a.payloadLen → a.payload ≠ none)
    (old : Nat → UInt8) :
    (List.range a.payloadLen).map (memcpy old ((a.payload.getD []).take a.payloadLen)) =
      (a.payload.getD []).take a.payloadLen := by
  have hlen : a.payloadLen = ((a.payload.getD []).take a.payloadLen).length := by
    cases hp : a.payload with
    | none =>
      have hzero : ¬ 0 < a.payloadLen := fun h ↦ hnull h hp
      simp only [Option.getD_none, List.take_nil, List.length_nil]
      omega
    | some bytes =>
      rw [Option.getD_some, List.length_take, Nat.min_eq_left (hr bytes (by rw [hp]; rfl))]
  have h := memcpy_range old ((a.payload.getD []).take a.payloadLen)
  rwa [← hlen] at h

/-- An accepted submission overwrites all that a consumer reads. -/
theorem Args.submitFills_content (hr : a.Readable) (hc : a.check = 0) (ns sh : Nat) (old : Frame) :
    (old.fillAll (a.submitFills ns sh)).content = a.content := by
  obtain ⟨hfeed, hsymbol, -, hnull⟩ := Args.check_eq_zero.1 hc
  have hpayload := a.payload_map hr hnull
  have hfs := cstr_memcpy hfeed old.feed
  have hss := cstr_memcpy hsymbol old.symbol
  by_cases hlen : 0 < a.payloadLen
  · simp only [Frame.fillAll, Args.submitFills, if_pos hlen, List.cons_append, List.nil_append,
      List.foldl_cons, List.foldl_nil, Fill.apply, Frame.write, Frame.content, Args.content, hfs, hss,
      hpayload]
  · have hzero : a.payloadLen = 0 := by omega
    simp only [Frame.fillAll, Args.submitFills, List.cons_append, List.nil_append,
      List.foldl_cons, List.foldl_nil, Fill.apply, Frame.write, Frame.content, Args.content, hfs, hss,
      hzero, Nat.lt_irrefl, if_false, List.range_zero, List.map_nil, List.take_zero]

/-- The fast path does what the plain one does: both labels are there, nothing is cut off, and the
payload is there when it has a length. -/
structure Args.Plain (a : Args) : Prop where
  feed : a.feed ≠ none
  symbol : a.symbol ≠ none
  check : a.check = 0

/-- A keyed submission overwrites as much when nothing is missing and nothing is cut off. -/
theorem Args.keyedFills_content (hr : a.Readable) (h : a.Plain) (old : Frame) :
    (old.fillAll a.keyedFills).content = a.content := by
  obtain ⟨hfeed, hsymbol, hlen, hnull⟩ := Args.check_eq_zero.1 h.check
  have hpayload := a.payload_map hr hnull
  obtain ⟨f, hf⟩ := Option.ne_none_iff_exists'.mp h.feed
  obtain ⟨g, hg⟩ := Option.ne_none_iff_exists'.mp h.symbol
  rw [hf, Option.getD_some] at hfeed
  rw [hg, Option.getD_some] at hsymbol
  have hfs := cstr_memcpy hfeed old.feed
  have hss := cstr_memcpy hsymbol old.symbol
  have hft : f.bytes.take feedMax = f.bytes := List.take_of_length_le hfeed
  have hgt : g.bytes.take symbolMax = g.bytes := List.take_of_length_le hsymbol
  cases hp : a.payload with
  | none =>
    have hzero : a.payloadLen = 0 := by
      by_contra hne
      exact hnull (by omega) hp
    simp [Frame.fillAll, Args.keyedFills, hf, hg, hp, hft, hgt, Fill.apply, Frame.write,
      Frame.content, Args.content, hfs, hss, hzero]
  | some bytes =>
    rw [hp, Option.getD_some] at hpayload
    by_cases hpos : 0 < a.payloadLen
    · simp [Frame.fillAll, Args.keyedFills, hf, hg, hp, hft, hgt, Fill.apply, Frame.write,
        Frame.content, Args.content, hfs, hss, hpos, Nat.min_eq_left hlen, hpayload]
    · have hzero : a.payloadLen = 0 := by omega
      simp [Frame.fillAll, Args.keyedFills, hf, hg, hp, hft, hgt, Fill.apply, Frame.write,
        Frame.content, Args.content, hfs, hss, hzero]

end Stores

section Results

variable {a : Args}

/-- What `awp_submit` returns and publishes on an open pool, in a slot that held `old`. -/
def Args.submitResult (a : Args) (ns sh : Nat) (old : Frame) : Int × Option Content :=
  if a.check = 0 then (0, some (old.fillAll (a.submitFills ns sh)).content) else (a.check, none)

/-- What `awp_submit_keyed` returns and publishes on an open pool, in a slot that held `old`. -/
def Args.keyedResult (a : Args) (old : Frame) : Int × Option Content :=
  (0, some (old.fillAll a.keyedFills).content)

theorem Args.keyedFills_feed (h : a.feed = none) (old : Frame) :
    (old.fillAll a.keyedFills).feed = old.feed := by
  simp only [Args.keyedFills, h, Option.elim]
  cases a.symbol <;> cases a.payload <;> by_cases hlen : 0 < a.payloadLen <;>
    simp [Frame.fillAll, Fill.apply, Frame.write, hlen]

theorem Args.keyedFills_symbol (h : a.symbol = none) (old : Frame) :
    (old.fillAll a.keyedFills).symbol = old.symbol := by
  simp only [Args.keyedFills, h, Option.elim]
  cases a.feed <;> cases a.payload <;> by_cases hlen : 0 < a.payloadLen <;>
    simp [Frame.fillAll, Fill.apply, Frame.write, hlen]

/-- A label left by an earlier occupant. -/
def CString.residue : CString := ⟨[1], by simp⟩

/-- The fast path agrees with the plain one, on every slot, exactly on what is `Plain`. -/
theorem Args.results_agree_iff (hr : a.Readable) :
    (∀ ns sh old old', a.submitResult ns sh old = a.keyedResult old') ↔ a.Plain := by
  constructor
  · intro h
    have hcheck : a.check = 0 := by
      by_contra hne
      have hz := h 0 0 .zero .zero
      rw [Args.submitResult, if_neg hne, Args.keyedResult, Prod.mk.injEq] at hz
      exact hne hz.1
    have hcontent : ∀ old : Frame, (old.fillAll a.keyedFills).content = a.content := by
      intro old
      have ho := h 0 0 .zero old
      rw [Args.submitResult, if_pos hcheck, a.submitFills_content hr hcheck, Args.keyedResult,
        Prod.mk.injEq, Option.some.injEq] at ho
      exact ho.2.symm
    have hres : ∀ old : Nat → UInt8, cstr (feedMax + 1) (memcpy old (CString.residue.bytes ++ [0])) =
        [1] := fun old ↦ cstr_memcpy (by decide) old
    refine ⟨fun hf ↦ ?_, fun hs ↦ ?_, hcheck⟩
    · have he := congrArg Content.feed (hcontent (Frame.zero.write (.feed CString.residue.bytes)))
      rw [Frame.content, a.keyedFills_feed hf, Args.content, hf] at he
      cases (hres _).symm.trans he
    · have he := congrArg Content.symbol (hcontent (Frame.zero.write (.symbol CString.residue.bytes)))
      rw [Frame.content, a.keyedFills_symbol hs, Args.content, hs] at he
      cases (hres _).symm.trans he
  · intro h ns sh old old'
    rw [Args.submitResult, if_pos h.check, a.submitFills_content hr h.check, Args.keyedResult,
      a.keyedFills_content hr h]

end Results

/-! ## Who writes where -/

/-- The sequence number of a cell never goes back, and a position that is about to be published is
its cell's sequence number. -/
theorem Ring.step_sequence {s : RingSys Agent Nat} {g : Nat → Lap Agent Nat} {cap : Capacity}
    (hc : Cells cap s g) {a : Agent} {spurious : Bool} {r' : Ring Nat Agent Nat} {l' : Loc Nat Nat}
    (h : s.ring.step cap.val a spurious (s.loc a) = some (r', l')) (q : Nat) :
    (s.ring.cells q).sequence ≤ (r'.cells q).sequence ∧
      ∀ sp f pos, s.loc a = .pubSeq sp f pos → (s.ring.cells (pos % cap.val)).sequence = pos ∧
        (r'.cells (pos % cap.val)).sequence = pos + 1 := by
  have hloc := hc.locs a
  have hset : ∀ (r : Ring Nat Agent Nat) pos x d, r.cells = s.ring.cells →
      (s.ring.cells (pos % cap.val)).sequence ≤ x →
      (s.ring.cells q).sequence ≤ ((r.setCell cap.val pos ⟨x, d⟩).cells q).sequence := by
    intro r pos x d hr hx
    simp only [Ring.setCell, slot_nat, hr]
    by_cases hq : q = pos % cap.val
    · subst hq
      simpa only [Function.update_self] using hx
    · simp only [Function.update_of_ne hq, le_refl]
  have hkeep : r'.cells = s.ring.cells → (∀ sp f pos, s.loc a ≠ .pubSeq sp f pos) →
      (s.ring.cells q).sequence ≤ (r'.cells q).sequence ∧
        ∀ sp f pos, s.loc a = .pubSeq sp f pos → (s.ring.cells (pos % cap.val)).sequence = pos ∧
          (r'.cells (pos % cap.val)).sequence = pos + 1 :=
    fun hr hl ↦ ⟨hr ▸ le_rfl, fun sp f pos he ↦ absurd he (hl sp f pos)⟩
  generalize s.loc a = l at h hloc hkeep
  cases l with
  | wake w v => cases w <;> simp only [Ring.step, Ring.wakeStep] at h <;> grind
  | wait q w k => cases w <;> simp only [Ring.step, Ring.waitStep] at h <;> grind
  | popTake sc spin pos => cases sc <;> simp only [Ring.step] at h <;> grind
  | pubData sp f pos | popClear sc pos out =>
    cases h
    exact ⟨hset _ pos _ _ rfl (by rw [Ring.cell, slot_nat]), by simp⟩
  | pubSeq sp f pos =>
    have hseq := (hc.cell (pos % cap.val) (Nat.mod_lt _ cap.pos)).seq
    rw [hloc.1] at hseq
    cases h
    refine ⟨hset _ pos _ _ rfl ?_, fun sp' f' pos' he ↦ ?_⟩
    · rw [hseq]
      exact Nat.le_succ pos
    · cases he
      exact ⟨hseq, by simp only [Ring.setCell, slot_nat, Function.update_self]; rfl⟩
  | popStore sc pos out =>
    obtain ⟨f, hg, -⟩ := hloc
    have hseq := (hc.cell (pos % cap.val) (Nat.mod_lt _ cap.pos)).seq
    rw [hg] at hseq
    cases h
    refine ⟨hset _ pos _ _ rfl ?_, by simp⟩
    have hpos := cap.pos
    simp only [hseq, Lap.seq, Status.published, if_true, offset_nat]
    omega
  | _ =>
    simp only [Ring.step] at h
    grind

theorem ApiPc.next_writes {c : Config} {m : Ctl} {d d' : Dat} {l : Loc Nat Nat} {x : Choice} {k : Cmd}
    {p p' : ApiPc} (hn : p.next c m d l x = some (d', p', k)) : d'.published = d.published ∧
      ∀ i q, (∀ pos, p.place = .hold i pos → c.slot pos ≠ q) → d'.slab i q = d.slab i q := by
  have hset : ∀ (j : Job) pos (f : Frame → Frame) i q,
      (∀ pos', Place.hold j.sh pos = .hold i pos' → c.slot pos' ≠ q) →
      (d.setFrame j.sh (c.slot pos) f).slab i q = d.slab i q := by
    intro j pos f i q hne
    rw [Dat.setFrame]
    by_cases hi : i = j.sh
    · subst hi
      simp only [Function.update_self, Function.update_of_ne (hne pos rfl).symm]
    · simp only [Function.update_of_ne hi]
  cases p with
  | fill j pos ws =>
    cases ws with
    | nil =>
      obtain ⟨rfl, rfl, rfl⟩ := outcome_inj hn
      exact ⟨rfl, fun _ _ _ ↦ rfl⟩
    | cons f ws =>
      obtain ⟨rfl, rfl, rfl⟩ := outcome_inj hn
      refine ⟨?_, fun i q hne ↦ ?_⟩
      · cases f <;> rfl
      · cases f with
        | write w => exact hset j pos (·.write w) i q hne
        | nextSeq => exact hset j pos (·.write (.seq d.seq)) i q hne
        | stamp => exact hset j pos (·.write (.submitNs m.clock)) i q hne
  | claimed j pos =>
    cases x <;> cases hn
    · exact ⟨rfl, hset j pos _⟩
    · exact ⟨rfl, fun _ _ _ ↦ rfl⟩
  | reserve j | waitSpace j | publish j pos => cases l <;> cases hn <;> exact ⟨rfl, fun _ _ _ ↦ rfl⟩
  | idle | done rc slot | read v => cases hn
  | _ =>
    obtain ⟨rfl, rfl, rfl⟩ := outcome_inj hn
    exact ⟨rfl, fun _ _ _ ↦ rfl⟩

section Own

variable {c : Config} {s s' : Pool}

/-- Two parties never own one slot. -/
theorem Sound.owns_apart (h : Sound c s) {a b : Agent} (hne : a ≠ b) {p q : Nat}
    (hsh : (s.thr a).sh = (s.thr b).sh) (hp : (s.thr a).loc.owns = some p)
    (hq : (s.thr b).loc.owns = some q) : c.slot p ≠ c.slot q := by
  obtain ⟨g, hc, -⟩ := (h.rings (s.thr b).sh).laps
  have hlap : ∀ x pos, (s.thr x).sh = (s.thr b).sh → (s.thr x).loc.owns = some pos →
      g (pos % c.capacity.val) = ⟨pos, .reserved x⟩ := by
    intro x pos hx hpos
    have hloc := hc.locs x
    rw [show (s.shard (s.thr b).sh).loc x = (s.thr x).loc from if_pos hx] at hloc
    cases hl : (s.thr x).loc <;> rw [hl] at hpos hloc <;> cases hpos
    · exact hloc
    · exact hloc.1
    · exact hloc.1
  intro heq
  rw [Config.slot, Config.slot, slot_nat, slot_nat] at heq
  have hg := (hlap a p hsh hp).symm.trans (heq ▸ hlap b q rfl hq)
  simp only [Lap.mk.injEq, Status.reserved.injEq] at hg
  exact hne hg.2

/-- Nobody else writes a frame whose slot a call owns. -/
theorem Sound.slab_other (h : Sound c s) {e : Label} (hst : s.step c e = some s') {n pos : Nat}
    (hl : (s.thr (.api n)).loc.owns = some pos) (he : ∀ x, e ≠ .step (.api n) x) :
    s'.dat.slab (s.thr (.api n)).sh (c.slot pos) = s.dat.slab (s.thr (.api n)).sh (c.slot pos) := by
  rcases Pool.step_cases hst with ⟨t, -, rfl⟩ | ⟨n', pc, -, -, rfl⟩ |
    ⟨a, x, spurious, r, l, -, -, -, -, -, rfl⟩ | ⟨a, x, m, d, pc, k, sh, l, rfl, -, -, hnext, -, rfl⟩
  · rfl
  · rfl
  · cases (s.thr a).loc <;> rfl
  · have hne : a ≠ .api n := fun ha ↦ he x (by rw [ha])
    have hfit := h.seated.fits a
    simp only [Pool.next] at hnext
    split at hnext
    · rename_i p hp
      simp only [Option.map_eq_some_iff, Prod.mk.injEq] at hnext
      obtain ⟨⟨d', p', k'⟩, hn, rfl, rfl, rfl, rfl⟩ := hnext
      refine (ApiPc.next_writes hn).2 _ _ fun pos' hplace ↦ ?_
      rw [hp] at hfit
      simp only [Pc.place, hplace] at hfit
      exact h.owns_apart hne hfit.1 (by rw [hfit.2]; rfl) hl
    all_goals
      simp only [Option.map_eq_some_iff, Prod.mk.injEq, reduceCtorEq] at hnext
      try obtain ⟨_, -, rfl, rfl, -⟩ := hnext
      try rfl

/-- Outside the ring functions nothing is published. -/
theorem Pool.next_published {a : Agent} {x : Choice} {m : Ctl} {d : Dat} {pc : Pc} {k : Cmd}
    (hnext : s.next c a x = some (m, d, pc, k)) : d.published = s.dat.published := by
  simp only [Pool.next] at hnext
  split at hnext
  · simp only [Option.map_eq_some_iff, Prod.mk.injEq] at hnext
    obtain ⟨⟨d', p', k'⟩, hn, rfl, rfl, rfl, rfl⟩ := hnext
    exact (ApiPc.next_writes hn).1
  all_goals
    simp only [Option.map_eq_some_iff, Prod.mk.injEq, reduceCtorEq] at hnext
    try obtain ⟨_, -, rfl, rfl, -⟩ := hnext
    try rfl

/-- Position `pos` of ring `i` has been published, in a frame that satisfies `R`. -/
structure Shows (c : Config) (ring : Nat → Ring Nat Agent Nat) (d : Dat) (R : Frame → Prop)
    (i pos : Nat) : Prop where
  past : pos < ((ring i).cells (c.slot pos)).sequence
  frame : ∃ fr, d.published i pos = some fr ∧ R fr

/-- What has been published stays. -/
theorem Shows.step (h : Sound c s) {R : Frame → Prop} {i pos : Nat}
    (hs : Shows c s.ring s.dat R i pos) {e : Label} (hst : s.step c e = some s') :
    Shows c s'.ring s'.dat R i pos := by
  rcases Pool.step_cases hst with ⟨t, -, rfl⟩ | ⟨n', pc, -, -, rfl⟩ |
    ⟨a, x, spurious, r, l, -, -, -, -, hstep, rfl⟩ | ⟨a, x, m, d, pc, k, sh, l, -, -, -, hnext, -, rfl⟩
  · exact hs
  · exact hs
  · by_cases hi : i = (s.thr a).sh
    · subst hi
      obtain ⟨g, hc, -⟩ := (h.rings (s.thr a).sh).laps
      have hloc : (s.shard (s.thr a).sh).loc a = (s.thr a).loc := if_pos rfl
      obtain ⟨hmono, hpub⟩ := Ring.step_sequence hc (hloc ▸ hstep) (c.slot pos)
      refine ⟨by simpa only [Function.update_self] using hs.past.trans_le hmono, ?_⟩
      rw [hloc] at hpub
      obtain ⟨fr, hfr, hR⟩ := hs.frame
      refine ⟨fr, ?_, hR⟩
      rw [← hfr]
      cases hl : (s.thr a).loc with
      | pubSeq sp f q =>
        have hq : pos ≠ q := by
          rintro rfl
          have hseq := (hpub sp f pos hl).1
          have hpast := hs.past
          rw [Config.slot, slot_nat] at hpast
          exact absurd (hpast.trans_eq hseq) (Nat.lt_irrefl pos)
        simp only [Dat.notePublish, Function.update_self, Function.update_of_ne hq]
      | _ => rfl
    · refine ⟨by simpa only [Function.update_of_ne hi] using hs.past, ?_⟩
      obtain ⟨fr, hfr, hR⟩ := hs.frame
      refine ⟨fr, ?_, hR⟩
      rw [← hfr]
      cases (s.thr a).loc with
      | pubSeq sp f q => simp only [Dat.notePublish, Function.update_of_ne hi]
      | _ => rfl
  · refine ⟨hs.past, ?_⟩
    simpa only [Pool.next_published hnext] using hs.frame

/-! ## A call in a run -/

/-- A call begins outside the ring functions. -/
theorem Pool.call_thr (hs : Seated c s) {n : Nat} {f : ApiCall} {pool : Bool}
    (hst : s.step c (.call n pool f) = some s') :
    s'.thr (.api n) = ⟨.api (f.start c pool), (s.thr (.api n)).sh, .idle⟩ := by
  rcases Pool.step_cases hst with ⟨t, he, -⟩ | ⟨n', pc, hidle, hpc, rfl⟩ |
    ⟨a, y, spurious, r, l, he, -⟩ | ⟨a, y, m, d, pc, k, sh, l, he, -⟩
  · cases he
  · rcases hpc with ⟨pool', f', he, rfl⟩ | ⟨tls, he, -⟩ | ⟨he, -⟩ <;> cases he
    simp only [Function.update_self, hs.idle_loc hidle]
  · cases he
  · cases he

/-- What a step does to a call under way: it is somebody else's, an access of the call in its ring, or
a step of the call outside the ring functions. -/
theorem Pool.step_call {n : Nat} {p : ApiPc} (hp : (s.thr (.api n)).pc = .api p) (hidle : p ≠ .idle)
    {e : Label} (hst : s.step c e = some s') :
    ((∀ x, e ≠ .step (.api n) x) ∧ s'.thr (.api n) = s.thr (.api n)) ∨
    (∃ spurious r l, (s.thr (.api n)).loc.active = true ∧
      (s.ring (s.thr (.api n)).sh).step c.capacity.val (.api n) spurious (s.thr (.api n)).loc =
        some (r, l) ∧
      s'.thr (.api n) = ⟨.api p, (s.thr (.api n)).sh, l⟩ ∧
      s'.ring = Function.update s.ring (s.thr (.api n)).sh r ∧
      s'.dat = s.dat.notePublish c (s.thr (.api n)).sh (s.thr (.api n)).loc) ∨
    ∃ x p' k sh l, p.next c s.ctl s.dat (s.thr (.api n)).loc x = some (s'.dat, p', k) ∧
      k.apply (s.thr (.api n)).sh (s.thr (.api n)).loc = some (sh, l) ∧
      s'.thr (.api n) = ⟨.api p', sh, l⟩ ∧ s'.ring = s.ring := by
  rcases Pool.step_cases hst with ⟨t, rfl, rfl⟩ | ⟨n', pc, hidle', hstart, rfl⟩ |
    ⟨a, x, spurious, r, l, rfl, -, hact, -, hstep, rfl⟩ |
    ⟨a, x, m, d, pc, k, sh, l, rfl, -, hact, hnext, hk, rfl⟩
  · exact Or.inl ⟨by simp, rfl⟩
  · have hne : Agent.api n ≠ .api n' := by
      rintro he
      rw [← he, hp] at hidle'
      exact hidle (Pc.api.inj hidle')
    refine Or.inl ⟨?_, Function.update_of_ne hne _ _⟩
    rcases hstart with ⟨pool, f, rfl, -⟩ | ⟨tls, rfl, -⟩ | ⟨rfl, -⟩ <;> simp
  · by_cases ha : a = .api n
    · subst ha
      exact Or.inr (Or.inl ⟨spurious, r, l, hact, hstep, by simp only [Function.update_self, hp], rfl,
        rfl⟩)
    · exact Or.inl ⟨by simp [ha], Function.update_of_ne (Ne.symm ha) _ _⟩
  · by_cases ha : a = .api n
    · subst ha
      simp only [Pool.next, hp, Option.map_eq_some_iff, Prod.mk.injEq] at hnext
      obtain ⟨⟨d', p', k'⟩, hn, rfl, rfl, rfl, rfl⟩ := hnext
      exact Or.inr (Or.inr ⟨x, p', k', sh, l, hn, hk, Function.update_self _ _ _, rfl⟩)
    · exact Or.inl ⟨by simp [ha], Function.update_of_ne (Ne.symm ha) _ _⟩

end Own

/-! ## What a call publishes -/

section Brings

variable (c : Config) (K : Kind → Prop) (R : Frame → Prop)

/-- The call, of a kind in `K`, is on its way, with a published frame in `R` if it publishes. -/
def ApiPc.Brings (ring : Nat → Ring Nat Agent Nat) (d : Dat) (l : Loc Nat Nat) : ApiPc → Prop
  | .submitEnter a => a.check = 0 → ∀ ns, K (.submit a ns)
  | .submitActive a | .submitGate a _ => ∀ ns, K (.submit a ns)
  | .retry j | .claimEnter j | .gate j _ | .reserve j | .waitSpace j | .drop j | .activate j _ =>
    K j.kind
  | .fill j pos ws => K j.kind ∧
    ∃ old ds, j.fills = ds ++ ws ∧ (d.slab j.sh (c.slot pos)).Like (Frame.fillAll old ds)
  | .publish j pos => K j.kind ∧
    match l with
    | .held _ | .pubData _ _ _ | .pubSeq _ _ _ =>
      ∃ old, (d.slab j.sh (c.slot pos)).Like (Frame.fillAll old j.fills)
    | _ => Shows c ring d R j.sh pos
  | .submitted j pos => K j.kind ∧ Shows c ring d R j.sh pos
  | .deactivate j _ slot | .leave j _ slot =>
    (∀ a, j.kind = .keyed a → K j.kind) ∧ ∀ x ∈ slot, Shows c ring d R x.1 x.2
  | .done _ slot => ∀ x ∈ slot, Shows c ring d R x.1 x.2
  | _ => False

variable {c K R} {ring ring' : Nat → Ring Nat Agent Nat} {d d' : Dat} {l l' : Loc Nat Nat}
  {p p' : ApiPc} {sh sh' : Nat}

/-- What other parties do changes nothing for the call. -/
theorem ApiPc.Brings.other (h : p.Brings c K R ring d l) (hfit : p.place.Fits sh l)
    (hshows : ∀ i pos, Shows c ring d R i pos → Shows c ring' d' R i pos)
    (hslab : ∀ pos, l.owns = some pos → d'.slab sh (c.slot pos) = d.slab sh (c.slot pos)) :
    p.Brings c K R ring' d' l := by
  cases p with
  | fill j pos ws =>
    obtain ⟨hk, old, ds, hds, hlike⟩ := h
    obtain ⟨rfl, rfl⟩ := hfit
    exact ⟨hk, old, ds, hds, by rwa [hslab pos rfl]⟩
  | publish j pos =>
    obtain ⟨hk, h⟩ := h
    refine ⟨hk, ?_⟩
    obtain ⟨-, hq⟩ | ⟨rfl, hspan⟩ := hfit
    · cases hq
    · cases l with
      | held q | pubData sp f q | pubSeq sp f q =>
        have hq : pos = q := by
          simp only [RingFn.spans] at hspan
          grind [RingFn.spans]
        subst hq
        obtain ⟨old, hlike⟩ := h
        exact ⟨old, by rwa [hslab pos rfl]⟩
      | _ => exact hshows _ _ h
  | submitted j pos => exact ⟨h.1, hshows _ _ h.2⟩
  | deactivate j rc slot | leave j rc slot => exact ⟨h.1, fun x hx ↦ hshows _ _ (h.2 x hx)⟩
  | done rc slot => exact fun x hx ↦ hshows _ _ (h x hx)
  | _ => exact h

theorem Dat.fill_slab (d : Dat) (now i slot : Nat) (f : Fill) {old : Frame} {ds : List Fill}
    (h : (d.slab i slot).Like (old.fillAll ds)) :
    ((d.fill now i slot f).slab i slot).Like (old.fillAll (ds ++ [f])) := by
  rw [Frame.fillAll, List.foldl_append]
  cases f with
  | write w =>
    simp only [Dat.fill, Dat.setFrame, Function.update_self]
    exact h.write w
  | nextSeq =>
    simp only [Dat.fill, Dat.setFrame, Function.update_self]
    exact ⟨h.feed, h.symbol, h.payload, h.payloadLen, h.flags⟩
  | stamp =>
    simp only [Dat.fill, Dat.setFrame, Function.update_self]
    exact ⟨h.feed, h.symbol, h.payload, h.payloadLen, h.flags⟩

theorem Job.brings_reject (j : Job) (rc : Int) (hk : K j.kind) :
    (j.reject rc).Brings c K R ring d l := by
  rw [Job.reject]
  cases j.kind <;> exact ⟨fun _ _ ↦ hk, by simp⟩

theorem Job.brings_again (j : Job) {loop : Job → ApiPc} (hk : K j.kind)
    (hloop : ∀ j' : Job, K j'.kind → (loop j').Brings c K R ring d l) :
    (j.again loop).Brings c K R ring d l := by
  rw [Job.again]
  split
  · exact hloop _ hk
  · exact hk

theorem Job.brings_refused (j : Job) (v : Ret Nat Nat) (hk : K j.kind) :
    (j.refused v).Brings c K R ring d l := by
  have hagain : (j.again (ApiPc.gate · .lifecycle)).Brings c K R ring d l :=
    j.brings_again hk fun _ hj ↦ hj
  simp only [Job.refused]
  cases hj : j.kind <;> cases v <;>
    first | exact hk | exact hagain | exact ⟨fun _ _ ↦ hk, by simp⟩

/-- A step of the call itself outside the ring functions. -/
theorem ApiPc.Brings.next {m : Ctl} {x : Choice} {k : Cmd} (h : p.Brings c K R ring d l)
    (hn : p.next c m d l x = some (d', p', k)) (hk : k.apply sh l = some (sh', l'))
    (hfit : p.place.Fits sh l) (hclaim : ¬ K .claim)
    (hshows : ∀ i pos, Shows c ring d R i pos → Shows c ring d' R i pos) :
    p'.Brings c K R ring d' l' := by
  cases p with
  | submitEnter a =>
    obtain ⟨rfl, rfl, rfl⟩ := outcome_inj hn
    split
    · rename_i hcheck
      exact h hcheck
    · exact ⟨by simp [Args.job], by simp⟩
  | submitGate a g =>
    obtain ⟨rfl, rfl, rfl⟩ := outcome_inj hn
    split
    · cases g with
      | lifecycle | quarantined => exact h
      | destroyStarted => exact h _
    · exact ⟨by simp [Args.job], by simp⟩
  | retry j =>
    obtain ⟨rfl, rfl, rfl⟩ := outcome_inj hn
    split
    · exact j.brings_again h fun _ hj ↦ hj
    · exact h
  | gate j g =>
    obtain ⟨rfl, rfl, rfl⟩ := outcome_inj hn
    split
    · cases g <;> exact h
    · exact j.brings_reject _ h
  | reserve j =>
    cases l with
    | idle =>
      obtain ⟨rfl, rfl, rfl⟩ := outcome_inj hn
      exact h
    | held pos =>
      obtain ⟨rfl, rfl, rfl⟩ := outcome_inj hn
      cases hj : j.kind with
      | submit a ns => exact ⟨h, _, [], rfl, .refl _⟩
      | claim | keyed a => exact h
    | ret v =>
      obtain ⟨rfl, rfl, rfl⟩ := outcome_inj hn
      exact j.brings_refused v h
    | _ => cases hn
  | waitSpace j =>
    cases l with
    | idle =>
      obtain ⟨rfl, rfl, rfl⟩ := outcome_inj hn
      exact h
    | ret v =>
      obtain ⟨rfl, rfl, rfl⟩ := outcome_inj hn
      split <;> exact h
    | _ => cases hn
  | drop j =>
    obtain ⟨rfl, rfl, rfl⟩ := outcome_inj hn
    exact ⟨fun _ _ ↦ h, by simp⟩
  | activate j pos =>
    obtain ⟨rfl, rfl, rfl⟩ := outcome_inj hn
    exact ⟨h, _, [], rfl, .refl _⟩
  | fill j pos ws =>
    obtain ⟨hkind, old, ds, hds, hlike⟩ := h
    cases ws with
    | cons f ws =>
      obtain ⟨rfl, rfl, rfl⟩ := outcome_inj hn
      exact ⟨hkind, old, ds ++ [f], by rw [hds, List.append_assoc]; rfl, d.fill_slab _ _ _ f hlike⟩
    | nil =>
      obtain ⟨rfl, rfl, rfl⟩ := outcome_inj hn
      cases hk
      rw [List.append_nil] at hds
      obtain ⟨rfl, rfl⟩ := hfit
      cases hj : j.kind with
      | claim => exact absurd (hj ▸ hkind) hclaim
      | submit a ns | keyed a => exact ⟨hkind, old, hds ▸ hlike⟩
  | publish j pos =>
    obtain ⟨hkind, h⟩ := h
    cases l with
    | held q =>
      obtain ⟨rfl, rfl, rfl⟩ := outcome_inj hn
      cases hk
      exact ⟨hkind, h⟩
    | ret v =>
      obtain ⟨rfl, rfl, rfl⟩ := outcome_inj hn
      exact ⟨hkind, h⟩
    | _ => cases hn
  | submitted j pos =>
    obtain ⟨rfl, rfl, rfl⟩ := outcome_inj hn
    refine ⟨fun _ _ ↦ h.1, fun x hx ↦ ?_⟩
    cases hx
    exact hshows _ _ h.2
  | deactivate j rc slot =>
    obtain ⟨rfl, rfl, rfl⟩ := outcome_inj hn
    exact ⟨h.1, fun x hx ↦ hshows _ _ (h.2 x hx)⟩
  | leave j rc slot =>
    obtain ⟨rfl, rfl, rfl⟩ := outcome_inj hn
    have hslot := fun x hx ↦ hshows _ _ (h.2 x hx)
    rw [Job.return]
    cases hj : j.kind with
    | submit a ns | claim => exact hslot
    | keyed a =>
      dsimp only
      split
      · exact hslot
      · exact j.brings_again (h.1 a hj) fun _ hk' ↦ hk'
  | submitActive a | claimEnter j =>
    obtain ⟨rfl, rfl, rfl⟩ := outcome_inj hn
    exact h
  | done rc slot => cases hn
  | _ => exact h.elim

/-- An access of the call itself inside a ring function. -/
theorem ApiPc.Brings.access {a : Agent} {spurious : Bool} {r : Ring Nat Agent Nat}
    (h : p.Brings c K R ring d l) (hact : l.active = true) (hfit : p.place.Fits sh l)
    (hR : ∀ (j : Job) old fr, K j.kind → fr.Like (Frame.fillAll old j.fills) → R fr)
    (hstep : (ring sh).step c.capacity.val a spurious l = some (r, l'))
    (hshows : ∀ i pos, Shows c ring d R i pos →
      Shows c (Function.update ring sh r) (d.notePublish c sh l) R i pos) :
    p.Brings c K R (Function.update ring sh r) (d.notePublish c sh l) l' := by
  have hidle : l ≠ .idle := by
    rintro rfl
    cases hact
  cases p with
  | reserve j | waitSpace j => exact h
  | publish j pos =>
    obtain ⟨hkind, h⟩ := h
    refine ⟨hkind, ?_⟩
    obtain ⟨he, -⟩ | ⟨rfl, hspan⟩ := hfit
    · exact absurd he hidle
    · cases l with
      | pubData sp f q =>
        cases hstep
        exact h
      | pubSeq sp f q =>
        obtain ⟨old, hlike⟩ := h
        cases sp with
        | true => cases hspan
        | false =>
          have hq : pos = q := by simpa [RingFn.spans] using hspan
          subst hq
          cases hstep
          refine ⟨?_, d.slab j.sh (c.slot pos), ?_, hR j old _ hkind hlike⟩
          · simp only [Function.update_self, Ring.setCell, Config.slot, offset_nat]
            exact Nat.lt_succ_self pos
          · simp only [Dat.notePublish, Function.update_self]
      | wake w v =>
        have hs := hshows _ _ h
        cases w <;> simp only [Ring.step, Ring.wakeStep] at hstep
        · split at hstep <;> cases hstep <;> exact hs
        · split at hstep <;> cases hstep
          exact hs
        · cases hstep
          exact hs
        · cases hstep
          exact hs
      | held q | ret v | idle => cases hact
      | _ => cases hspan
  | activate j pos | fill j pos ws | claimed j pos =>
    rw [hfit.2] at hact
    cases hact
  | _ => exact absurd hfit hidle

variable {s s' : Pool} {n : Nat}

/-- The call of party `n` is on its way so. -/
def Pool.Bringing (c : Config) (K : Kind → Prop) (R : Frame → Prop) (s : Pool) (n : Nat) : Prop :=
  ∃ p, (s.thr (.api n)).pc = .api p ∧ p.Brings c K R s.ring s.dat (s.thr (.api n)).loc

theorem Pool.Bringing.step (h : Sound c s) (hclaim : ¬ K .claim)
    (hR : ∀ (j : Job) old fr, K j.kind → fr.Like (Frame.fillAll old j.fills) → R fr)
    (hb : s.Bringing c K R n) {e : Label} (hst : s.step c e = some s') : s'.Bringing c K R n := by
  obtain ⟨p, hp, hbring⟩ := hb
  have hshows : ∀ i pos, Shows c s.ring s.dat R i pos → Shows c s'.ring s'.dat R i pos :=
    fun i pos hs ↦ hs.step h hst
  have hfit := h.seated.fits (.api n)
  rw [hp] at hfit
  have hidle : p ≠ .idle := by
    rintro rfl
    exact hbring
  rcases Pool.step_call hp hidle hst with ⟨he, hthr⟩ |
    ⟨spurious, r, l, hact, hstep, hthr, hring, hdat⟩ | ⟨x, p', k, sh, l, hn, hk, hthr, hring⟩
  · rw [Pool.Bringing, hthr]
    exact ⟨p, hp, hbring.other hfit hshows fun pos hl ↦ h.slab_other hst hl he⟩
  · rw [hring, hdat] at hshows
    rw [Pool.Bringing, hthr, hring, hdat]
    exact ⟨p, rfl, hbring.access hact hfit hR hstep hshows⟩
  · rw [hring] at hshows
    rw [Pool.Bringing, hthr, hring]
    exact ⟨p', rfl, hbring.next hn hk hfit hclaim hshows⟩

/-- A call that has just begun is on its way. -/
theorem Pool.Bringing.start (h : Seated c s) {f : ApiCall} {pool : Bool}
    (hst : s.step c (.call n pool f) = some s')
    (hstart : ∀ ring d, (f.start c pool).Brings c K R ring d .idle) : s'.Bringing c K R n := by
  rw [Pool.Bringing, Pool.call_thr h hst]
  exact ⟨_, rfl, hstart _ _⟩

end Brings

/-! ## What a call returns on an open pool -/

/-- Nothing stops a submission to shard `i`. -/
def Pool.Open (s : Pool) (i : Nat) : Prop :=
  (∀ g : Gate, g.isOpen s.ctl = true) ∧ (s.ring i).closed = false

instance (s : Pool) (i : Nat) : Decidable (s.Open i) :=
  decidable_of_iff ((Gate.lifecycle.isOpen s.ctl = true ∧ Gate.quarantined.isOpen s.ctl = true ∧
    Gate.destroyStarted.isOpen s.ctl = true) ∧ (s.ring i).closed = false)
    (and_congr_left' ⟨fun h g ↦ by cases g <;> simp only [h], fun h ↦ ⟨h _, h _, h _⟩⟩)

section OnCourse

variable (good : Int)

/-- The call, a submission, is on its way to return `good`. -/
def ApiPc.OnCourse (l : Loc Nat Nat) : ApiPc → Prop
  | .submitEnter a => a.check = good
  | .submitActive _ | .submitGate _ _ => good = 0
  | .retry j | .claimEnter j | .gate j _ | .waitSpace j | .activate j _ =>
    good = 0 ∧ j.kind ≠ .claim ∧ j.tls = false
  | .reserve j => good = 0 ∧ j.kind ≠ .claim ∧ j.tls = false ∧ ∀ n, l ≠ .ret (.rc n)
  | .fill j _ _ => good = 0 ∧ j.kind ≠ .claim
  | .publish _ _ | .submitted _ _ => good = 0
  | .deactivate _ rc _ => good = 0 ∧ rc = 0
  | .leave j rc _ => (rc = good ∧ (good = 0 ∨ ∃ a ns, j.kind = .submit a ns)) ∨
    (rc = eagain ∧ good = 0 ∧ j.tls = false ∧ ∃ a, j.kind = .keyed a)
  | .done rc _ => rc = good
  | _ => False

variable {good} {c : Config} {l l' : Loc Nat Nat} {p p' : ApiPc} {sh sh' : Nat}

theorem Job.again_onCourse (j : Job) {loop : Job → ApiPc} (hg : good = 0) (hk : j.kind ≠ .claim)
    (ht : j.tls = false)
    (hloop : ∀ j' : Job, j'.kind = j.kind → j'.tls = false → (loop j').OnCourse good l) :
    (j.again loop).OnCourse good l := by
  rw [Job.again]
  split
  · exact hloop _ rfl ht
  · exact ⟨hg, hk, ht⟩

/-- A step of the call itself outside the ring functions. -/
theorem ApiPc.OnCourse.next {m : Ctl} {d d' : Dat} {x : Choice} {k : Cmd} (h : p.OnCourse good l)
    (hn : p.next c m d l x = some (d', p', k)) (hk : k.apply sh l = some (sh', l'))
    (hfit : p.place.Fits sh l) (hopen : ∀ g : Gate, g.isOpen m = true) : p'.OnCourse good l' := by
  cases p with
  | submitEnter a =>
    obtain ⟨rfl, rfl, rfl⟩ := outcome_inj hn
    split
    · rename_i hcheck
      exact h.symm.trans hcheck
    · exact Or.inl ⟨h, Or.inr ⟨a, 0, rfl⟩⟩
  | submitGate a g =>
    obtain ⟨rfl, rfl, rfl⟩ := outcome_inj hn
    rw [if_pos (hopen g)]
    cases g with
    | lifecycle | quarantined => exact h
    | destroyStarted => exact ⟨h, by simp [Args.job], rfl⟩
  | retry j =>
    obtain ⟨rfl, rfl, rfl⟩ := outcome_inj hn
    rw [h.2.2]
    exact h
  | gate j g =>
    obtain ⟨rfl, rfl, rfl⟩ := outcome_inj hn
    cases hk
    rw [if_pos (hopen g)]
    cases g with
    | lifecycle | quarantined => exact h
    | destroyStarted =>
      refine ⟨h.1, h.2.1, h.2.2, fun n ↦ ?_⟩
      rw [show l = .idle from hfit]
      simp
  | reserve j =>
    obtain ⟨hg, hkind, htls, hret⟩ := h
    cases l with
    | idle =>
      obtain ⟨rfl, rfl, rfl⟩ := outcome_inj hn
      cases hk
      exact ⟨hg, hkind, htls, by simp [ringClaim]⟩
    | held pos =>
      obtain ⟨rfl, rfl, rfl⟩ := outcome_inj hn
      cases hj : j.kind with
      | submit a ns => exact ⟨hg, hkind⟩
      | claim | keyed a => exact ⟨hg, hkind, htls⟩
    | ret v =>
      obtain ⟨rfl, rfl, rfl⟩ := outcome_inj hn
      have hv : v = .slotFull ∨ v = .slotAhead ∨ v = .slotLost := by
        obtain ⟨hidle, -⟩ | ⟨-, hspan⟩ := hfit
        · cases hidle
        · cases v <;> simp only [RingFn.spans, Bool.false_eq_true, reduceCtorEq, or_true, true_or,
            or_self] at hspan ⊢
          exact hret _ rfl
      have hgate : ∀ j' : Job, j'.kind = j.kind → j'.tls = false →
          (ApiPc.gate j' .lifecycle).OnCourse good l' :=
        fun j' hj ht ↦ ⟨hg, hj ▸ hkind, ht⟩
      cases hj : j.kind with
      | submit a ns =>
        rcases hv with rfl | rfl | rfl <;> simp only [Job.refused, hj]
        · exact j.again_onCourse hg hkind htls hgate
        · exact hgate j rfl htls
        · exact hgate j rfl htls
      | claim => exact absurd hj hkind
      | keyed a =>
        rcases hv with rfl | rfl | rfl <;> simp only [Job.refused, hj] <;>
          exact Or.inr ⟨rfl, hg, htls, a, hj⟩
    | _ => cases hn
  | waitSpace j =>
    cases l with
    | idle =>
      obtain ⟨rfl, rfl, rfl⟩ := outcome_inj hn
      exact h
    | ret v =>
      obtain ⟨rfl, rfl, rfl⟩ := outcome_inj hn
      split <;> exact h
    | _ => cases hn
  | activate j pos =>
    obtain ⟨rfl, rfl, rfl⟩ := outcome_inj hn
    exact ⟨h.1, h.2.1⟩
  | fill j pos ws =>
    cases ws with
    | cons f ws =>
      obtain ⟨rfl, rfl, rfl⟩ := outcome_inj hn
      exact h
    | nil =>
      obtain ⟨rfl, rfl, rfl⟩ := outcome_inj hn
      cases hj : j.kind with
      | claim => exact absurd hj h.2
      | submit a ns | keyed a => exact h.1
  | publish j pos => cases l <;> cases hn <;> exact h
  | submitted j pos =>
    obtain ⟨rfl, rfl, rfl⟩ := outcome_inj hn
    exact ⟨h, rfl⟩
  | deactivate j rc slot =>
    obtain ⟨rfl, rfl, rfl⟩ := outcome_inj hn
    exact Or.inl ⟨h.2.trans h.1.symm, Or.inl h.1⟩
  | leave j rc slot =>
    obtain ⟨rfl, rfl, rfl⟩ := outcome_inj hn
    rw [Job.return]
    rcases h with ⟨rfl, hg⟩ | ⟨rfl, hg, htls, a, hj⟩
    · cases hj : j.kind with
      | submit a ns | claim => rfl
      | keyed a =>
        have hzero : rc = 0 := by
          rcases hg with hg | ⟨a', ns, hj'⟩
          · exact hg
          · rw [hj] at hj'
            cases hj'
        simp only [hzero, true_or, if_true]
        rfl
    · rw [hj]
      simp only [eagain, reduceCtorEq, Int.reduceNeg, Int.reduceEq, or_self, if_false]
      exact j.again_onCourse hg (by simp [hj]) htls fun j' hj' ht ↦ ⟨hg, by simp [hj', hj], ht⟩
  | submitActive a | claimEnter j =>
    obtain ⟨rfl, rfl, rfl⟩ := outcome_inj hn
    exact h
  | done rc slot => cases hn
  | _ => exact h.elim

/-- On an open ring a reservation does not come back with an error. -/
theorem RingFn.claim_open {cap : Nat} {a : Agent} {spurious : Bool} {r r' : Ring Nat Agent Nat}
    {l l' : Loc Nat Nat} (hopen : r.closed = false) (hspan : RingFn.claim.spans l = true)
    (h : r.step cap a spurious l = some (r', l')) (n : Int) : l' ≠ .ret (.rc n) := by
  cases l with
  | enqClosed k _ | enqPos k _ | enqSeq k _ _ | enqCas k _ _ =>
    cases k <;> simp only [RingFn.spans, Bool.false_eq_true] at hspan
    simp only [Ring.step, Enq.ready, Enq.full, Enq.ahead, Enq.lost, Enq.reserved] at h
    grind
  | held pos | ret v => cases h
  | wait q w k => cases q <;> cases k <;> cases hspan
  | wake w v => cases v <;> cases hspan
  | _ => cases hspan

/-- An access of the call itself inside a ring function. -/
theorem ApiPc.OnCourse.access {a : Agent} {spurious : Bool} {r r' : Ring Nat Agent Nat}
    (h : p.OnCourse good l) (hact : l.active = true) (hfit : p.place.Fits sh l)
    (hopen : r.closed = false) (hstep : r.step c.capacity.val a spurious l = some (r', l')) :
    p.OnCourse good l' := by
  cases p with
  | reserve j =>
    obtain ⟨rfl, -⟩ | ⟨-, hspan⟩ := hfit
    · cases hact
    · exact ⟨h.1, h.2.1, h.2.2.1, RingFn.claim_open hopen hspan hstep⟩
  | _ => exact h

variable {s s' : Pool} {n : Nat}

theorem Pool.step_onCourse (h : Sound c s) {i : Nat} (ht : Tracked c s n i 0) (ho : s.Open i)
    (hc : ∃ p, (s.thr (.api n)).pc = .api p ∧ p.OnCourse good (s.thr (.api n)).loc) {e : Label}
    (hst : s.step c e = some s') :
    ∃ p, (s'.thr (.api n)).pc = .api p ∧ p.OnCourse good (s'.thr (.api n)).loc := by
  obtain ⟨p, hp, hcourse⟩ := hc
  have hfit := h.seated.fits (.api n)
  rw [hp] at hfit
  have hidle : p ≠ .idle := by
    rintro rfl
    exact hcourse
  rcases Pool.step_call hp hidle hst with ⟨-, hthr⟩ |
    ⟨spurious, r, l, hact, hstep, hthr, -, -⟩ | ⟨x, p', k, sh, l, hn, hk, hthr, -⟩
  · rw [hthr]
    exact ⟨p, hp, hcourse⟩
  · rw [hthr]
    obtain ⟨p', hp', hw⟩ := ht.call
    rw [hp, Pc.api.injEq] at hp'
    subst hp'
    have hsh : (s.thr (.api n)).sh = i := hw.sh hfit (by intro hl; rw [hl] at hact; cases hact)
    rw [hsh] at hstep
    exact ⟨p, rfl, hcourse.access hact hfit ho.2 hstep⟩
  · rw [hthr]
    exact ⟨p', rfl, hcourse.next hn hk hfit ho.1⟩

end OnCourse

section Returns

variable {c : Config} {K : Kind → Prop} {R : Frame → Prop}

/-- In some run, the call comes on a pool that stays open for it, and returns `rc` with what it has
published. -/
def Config.Returns (c : Config) (f : ApiCall) (rc : Int) (x : Option Content) : Prop :=
  ∃ now s₀ s₁ s₂ n i slot, f.shard c = some i ∧
    Steps (Pool.step c) anyStep (Pool.init c now) s₀ ∧ s₀.step c (.call n true f) = some s₁ ∧
    Steps (Pool.step c) (fun s _ ↦ s.Open i) s₁ s₂ ∧
    (s₂.thr (.api n)).pc = .api (.done rc slot) ∧
    x = slot.bind fun y ↦ (s₂.dat.published y.1 y.2).map Frame.content

theorem Config.Returns.comes {f : ApiCall} {rc : Int} {x : Option Content} (h : c.Returns f rc x)
    (good : Int) (hclaim : ¬ K .claim)
    (hR : ∀ (j : Job) old fr, K j.kind → fr.Like (Frame.fillAll old j.fills) → R fr)
    (hstart : ∀ ring d, (f.start c true).Brings c K R ring d .idle)
    (hcourse : (f.start c true).OnCourse good .idle) :
    rc = good ∧ ((rc ≠ 0 ∧ x = none) ∨ (rc = 0 ∧ ∃ fr, R fr ∧ x = some fr.content)) := by
  obtain ⟨now, s₀, s₁, s₂, n, i, slot, hf, hrun, hcall, hrun₁, hdone, rfl⟩ := h
  have hs₀ := Sound.run hrun
  have hacc₀ := Accounts.run hrun
  have htracked : Tracked c s₁ n i 0 := by
    have ht := Tracked.start hs₀ hcall (ApiCall.start_shard hf)
    exact ⟨ht.call.imp fun p hp ↦ ⟨hp.1, hp.2.mono fun _ _ ↦ Nat.zero_le _⟩,
      fun _ _ ↦ Nat.zero_le _, Nat.zero_le _⟩
  have honce : ∃ p, (s₁.thr (.api n)).pc = .api p ∧ p.OnCourse good (s₁.thr (.api n)).loc := by
    rw [Pool.call_thr hs₀.seated hcall]
    exact ⟨_, rfl, hcourse⟩
  have hinv := hrun₁.invariant
    (P := fun s ↦ Sound c s ∧ Accounts s ∧ Tracked c s n i 0 ∧ s.Bringing c K R n ∧
      ∃ p, (s.thr (.api n)).pc = .api p ∧ p.OnCourse good (s.thr (.api n)).loc)
    (fun s e s' ⟨h₁, h₂, h₃, h₄, h₅⟩ ho hst ↦ ⟨h₁.step hst, h₂.step h₁.seated hst, h₃.step h₁ hst,
      h₄.step h₁ hclaim hR hst, Pool.step_onCourse h₁ h₃ ho h₅ hst⟩)
    ⟨hs₀.step hcall, hacc₀.step hs₀.seated hcall, htracked, .start hs₀.seated hcall hstart, honce⟩
  obtain ⟨-, hacc, -, ⟨p, hp, hbring⟩, p', hp', hcourse'⟩ := hinv
  have hproper := hacc.proper n _ hdone
  rw [hdone, Pc.api.injEq] at hp hp'
  subst hp
  subst hp'
  refine ⟨hcourse', ?_⟩
  cases slot with
  | none => exact Or.inl ⟨fun hrc ↦ Bool.noConfusion (hproper.mp hrc), rfl⟩
  | some y =>
    obtain ⟨fr, hfr, hRfr⟩ := (hbring y rfl).frame
    exact Or.inr ⟨hproper.mpr rfl, fr, hRfr, by rw [Option.bind_some, hfr]; rfl⟩

/-- A schedule that starts with the call and stays open shows what it returns. -/
theorem Config.Returns.of_exec {f : ApiCall} {rc : Int} {x : Option Content} (now n i : Nat)
    (pre as : List Label) (hf : f.shard c = some i)
    (h : (exec (Pool.step c) (Pool.init c now) (pre ++ [.call n true f])).any (fun s ↦
      (exec (guarded (Pool.step c) fun s _ ↦ s.Open i) s as).any fun s ↦
        match (s.thr (.api n)).pc with
        | .api (.done rc' slot) =>
          rc' = rc ∧ x = slot.bind fun y ↦ (s.dat.published y.1 y.2).map Frame.content
        | _ => false) = true) : c.Returns f rc x := by
  obtain ⟨s₁, hs₁, hrest⟩ := exec_any h
  obtain ⟨s₂, hs₂, hP⟩ := exec_any hrest
  rw [exec_append, Option.bind_eq_some_iff] at hs₁
  obtain ⟨s₀, hs₀, hcall⟩ := hs₁
  have hcall' : s₀.step c (.call n true f) = some s₁ := by
    simpa only [exec, Option.bind_eq_some_iff, Option.some.injEq, exists_eq_right] using hcall
  split at hP
  · rename_i rc' slot hpc
    rw [decide_eq_true_eq] at hP
    exact ⟨now, s₀, s₁, s₂, n, i, slot, hf, exec_steps hs₀, hcall', exec_guarded_steps hs₂,
      hP.1 ▸ hpc, hP.2⟩
  · cases hP

end Returns

/-! ## The two interfaces -/

section Agree

variable {c : Config} {a : Args} {rc rc' : Int} {x x' : Option Content} {key : UInt64}

theorem Config.Returns.submit (h : c.Returns (.submit false a) rc x) :
    ∃ ns sh old, (rc, x) = a.submitResult ns sh old := by
  by_cases hcheck : a.check = 0
  · obtain ⟨rfl, ⟨hrc, -⟩ | ⟨-, fr, ⟨ns, sh, old, hfr⟩, rfl⟩⟩ := h.comes 0
      (K := fun k ↦ ∃ ns, k = .submit a.labelled ns)
      (R := fun fr ↦ ∃ ns sh old, fr.content = (Frame.fillAll old (a.submitFills ns sh)).content)
      (by simp) (fun j old fr ⟨ns, hj⟩ hlike ↦
        ⟨ns, j.sh, old, by rw [hlike.content, Job.fills, hj]; rfl⟩)
      (fun _ _ _ ns ↦ ⟨ns, rfl⟩) (a.labelled_check.trans hcheck)
    · exact absurd rfl hrc
    · exact ⟨ns, sh, old, by rw [Args.submitResult, if_pos hcheck, hfr]⟩
  · obtain ⟨rfl, ⟨-, rfl⟩ | ⟨hrc, -⟩⟩ := h.comes a.check
      (K := fun k ↦ ∃ ns, k = .submit a.labelled ns) (R := fun _ ↦ True)
      (by simp) (fun _ _ _ _ _ ↦ trivial) (fun _ _ _ ns ↦ ⟨ns, rfl⟩) a.labelled_check
    · exact ⟨0, 0, .zero, by rw [Args.submitResult, if_neg hcheck]⟩
    · exact absurd hrc hcheck

theorem Config.Returns.keyed (h : c.Returns (.keyed false key a) rc x) :
    ∃ old, (rc, x) = a.keyedResult old := by
  obtain ⟨rfl, ⟨hrc, -⟩ | ⟨-, fr, ⟨old, hfr⟩, rfl⟩⟩ := h.comes 0
    (K := fun k ↦ k = .keyed a)
    (R := fun fr ↦ ∃ old, fr.content = (Frame.fillAll old a.keyedFills).content)
    (by simp) (fun j old fr hj hlike ↦ ⟨old.write (.shard j.sh), by
      rw [hlike.content, Job.fills, hj]; rfl⟩)
    (fun _ _ ↦ rfl) ⟨rfl, by simp, rfl⟩
  · exact absurd rfl hrc
  · exact ⟨old, by rw [Args.keyedResult, hfr]⟩

/-- **The keyed fast path and `awp_submit`.**  On a pool that stays open a call comes to a function
of its arguments and of what its slot held, and the two functions agree on every slot exactly when
both labels are there and the plain path accepts the frame: then the calls of any two runs return
the same code, and publish the same contents. -/
theorem keyed_agrees (hr : a.Readable) :
    (a.Plain → c.Returns (.submit false a) rc x → c.Returns (.keyed false key a) rc' x' →
      rc = rc' ∧ x = x') ∧
    (c.Returns (.submit false a) rc x → ∃ ns sh old, (rc, x) = a.submitResult ns sh old) ∧
    (c.Returns (.keyed false key a) rc' x' → ∃ old, (rc', x') = a.keyedResult old) ∧
    ((∀ ns sh old old', a.submitResult ns sh old = a.keyedResult old') ↔ a.Plain) := by
  refine ⟨fun hplain hs hk ↦ ?_, fun h ↦ h.submit, fun h ↦ h.keyed, a.results_agree_iff hr⟩
  obtain ⟨ns, sh, old, he⟩ := hs.submit
  obtain ⟨old', he'⟩ := hk.keyed
  have h := he.trans (((a.results_agree_iff hr).mpr hplain ns sh old old').trans he'.symm)
  exact Prod.mk.injEq _ _ _ _ ▸ h

end Agree

/-- Two frames of feed `x` go through a queue of two. -/
def lapOfX : List Label :=
  .call 0 true (.submit false ⟨some ⟨[120], by simp⟩, none, none, 0, 0⟩) :: turns (.api 0) 30 ++
    submits 1 0 ++ turns (.worker 0 0) 14 ++ [.step (.worker 0 0) (.rc 0)] ++
    turns (.worker 0 0) 13 ++ [.step (.worker 0 0) (.rc 0)]

/-- A frame with both labels and two bytes. -/
def Args.feedY : Args := ⟨some ⟨[121], by simp⟩, some .empty, some [7, 8], 2, 0⟩

/-- It comes out the same by both ways after that. -/
theorem keyed_agrees_feedY : ∃ rc x rc' x', Config.small.Returns (.submit false .feedY) rc x ∧
    Config.small.Returns (.keyed false 0 .feedY) rc' x' ∧ rc = rc' ∧ x = x' := by
  have hs : Config.small.Returns (.submit false .feedY) 0 (some ⟨[121], [], [7, 8], 2, 0⟩) :=
    .of_exec 0 2 0 lapOfX (turns (.api 2) 31) rfl
      (by decide +kernel)
  have hk : Config.small.Returns (.keyed false 0 .feedY) 0 (some ⟨[121], [], [7, 8], 2, 0⟩) :=
    .of_exec 0 2 0 lapOfX (turns (.api 2) 29) rfl
      (by decide +kernel)
  have hr : Args.feedY.Readable := by
    rintro bytes ⟨⟩
    exact le_rfl
  exact ⟨_, _, _, _, hs, hk, (keyed_agrees hr).1 ⟨nofun, nofun, by decide⟩ hs hk⟩

/-- A frame without feed is published under feed `x` by the fast path then. -/
theorem keyed_residue : ∃ c a key rc x rc' x', Args.Readable a ∧
    Config.Returns c (.submit false a) rc x ∧ c.Returns (.keyed false key a) rc' x' ∧
    ¬ (rc = rc' ∧ x = x') :=
  ⟨.small, .bare 0, 0, 0, some ⟨[], [], [], 0, 0⟩, 0, some ⟨[120], [], [], 0, 0⟩, nofun,
    .of_exec 0 2 0 lapOfX (turns (.api 2) 30) rfl
      (by decide +kernel),
    .of_exec 0 2 0 lapOfX (turns (.api 2) 26) rfl
      (by decide +kernel), by decide⟩

end Awp
