import Mathlib.Data.Finset.Card
import AsyncWorkerPool.Ring.Raw

/-!
# Linear — position `p` is pushed once and popped once, with the same frame

`History` ties the history of publications and releases to the laps of the cells: a position has
been published exactly when its cell has come that far, and released exactly when the cell is past
it.  What a ring hands out is read off the laps: the frame popped at a position is the frame pushed
there, and at most `capacity` published frames are waiting.
-/

open Foundation

namespace Awp

section History

variable {A F : Type} {cap : Capacity}

/-- The history of a ring at the laps `g`. -/
structure History (cap : Capacity) (r : Ring Nat A F) (g : Nat → Lap A F) : Prop where
  pushed : ∀ p f, (p, f) ∈ r.pushes → p < (g (p % cap.val)).pos ∨
    (p = (g (p % cap.val)).pos ∧ (g (p % cap.val)).st.frame = some f)
  current : ∀ c < cap.val, ∀ f, (g c).st.frame = some f → ((g c).pos, f) ∈ r.pushes
  pushedOnce : (r.pushes.map Prod.fst).Nodup
  popped : ∀ p out, (p, out) ∈ r.pops →
    p < (g (p % cap.val)).pos ∧ ∃ f, out = some f ∧ (p, f) ∈ r.pushes
  released : ∀ p, p < (g (p % cap.val)).pos → ∃ out, (p, out) ∈ r.pops
  poppedOnce : (r.pops.map Prod.fst).Nodup

theorem History.init (frames : Nat → F) :
    History cap (Ring.init frames : Ring Nat A F) Lap.init where
  pushed := by simp [Ring.init]
  current := by simp [Lap.init, Status.frame]
  pushedOnce := by simp [Ring.init]
  popped := by simp [Ring.init]
  released p hp := by
    have hle := Nat.mod_le p cap.val
    simp only [Lap.init] at hp
    omega
  poppedOnce := by simp [Ring.init]

/-- A published position has exactly one frame. -/
theorem History.pushed_unique {r : Ring Nat A F} {g : Nat → Lap A F} (h : History cap r g)
    {p : Nat} {f f' : F} (hf : (p, f) ∈ r.pushes) (hf' : (p, f') ∈ r.pushes) : f = f' := by
  have hinj := List.inj_on_of_nodup_map h.pushedOnce hf hf' rfl
  exact (Prod.mk.inj hinj).2

theorem History.progress {r r' : Ring Nat A F} {g g' : Nat → Lap A F} (h : History cap r g)
    (hp : Progress cap r r' g g') : History cap r' g' := by
  cases hp with
  | quiet hpush hpop hpos hframe =>
    exact
      { pushed := by simpa only [hpush, hpos, hframe] using h.pushed
        current := by simpa only [hpush, hpos, hframe] using h.current
        pushedOnce := by simpa only [hpush] using h.pushedOnce
        popped := by simpa only [hpush, hpop, hpos] using h.popped
        released := by simpa only [hpop, hpos] using h.released
        poppedOnce := by simpa only [hpop] using h.poppedOnce }
  | publish pos f hg hnone hg' hpush hpop =>
    -- the cell stays at its position, which becomes a published one
    have hpos : ∀ c, (g' c).pos = (g c).pos := by
      intro c
      rw [hg']
      by_cases hc : c = pos % cap.val
      · rw [hc, Function.update_self, hg]
      · rw [Function.update_of_ne hc]
    have hfresh : ∀ f', (pos, f') ∉ r.pushes := by
      intro f' hm
      rcases h.pushed pos f' hm with hlt | ⟨-, hst⟩
      · omega
      · rw [hnone] at hst
        cases hst
    refine
      { pushed := fun p f' hm ↦ ?_
        current := fun c hc f' hst ↦ ?_
        pushedOnce := ?_
        popped := fun p out hm ↦ ?_
        released := fun p hlt ↦ by simpa only [hpop] using h.released p (by rwa [← hpos])
        poppedOnce := by rw [hpop]; exact h.poppedOnce }
    · rw [hpush, List.mem_append, List.mem_singleton, Prod.mk.injEq] at hm
      rw [hpos]
      rcases hm with hm | ⟨rfl, rfl⟩
      · rcases h.pushed p f' hm with hlt | ⟨he, hst⟩
        · exact Or.inl hlt
        · refine Or.inr ⟨he, ?_⟩
          have hne : p % cap.val ≠ pos % cap.val := by
            intro hmod
            rw [hmod] at hst
            rw [hnone] at hst
            cases hst
          rw [hg', Function.update_of_ne hne]
          exact hst
      · exact Or.inr ⟨hg.symm, by rw [hg', Function.update_self]; rfl⟩
    · rw [hpos, hpush, List.mem_append, List.mem_singleton, Prod.mk.injEq]
      by_cases hcc : c = pos % cap.val
      · rw [hg', hcc, Function.update_self] at hst
        simp only [Status.frame, Option.some.injEq] at hst
        exact Or.inr ⟨by rw [hcc, hg], hst.symm⟩
      · rw [hg', Function.update_of_ne hcc] at hst
        exact Or.inl (h.current c hc f' hst)
    · rw [hpush, List.map_append]
      refine List.nodup_append.mpr ⟨h.pushedOnce, by simp, ?_⟩
      rintro p hm q hq rfl
      simp only [List.map_cons, List.map_nil, List.mem_singleton] at hq
      obtain ⟨⟨p', f'⟩, hm', he⟩ := List.mem_map.mp hm
      simp only at he
      subst he
      exact hfresh f' (hq ▸ hm')
    · rw [hpop] at hm
      obtain ⟨hlt, f', ho, hm'⟩ := h.popped p out hm
      exact ⟨by rwa [hpos], f', ho, by rw [hpush]; exact List.mem_append_left _ hm'⟩
  | release pos f hg hsome hg' hpush hpop =>
    have hc₀ : pos % cap.val < cap.val := Nat.mod_lt _ cap.pos
    have hself : g' (pos % cap.val) = ⟨pos + cap.val, .free⟩ := by rw [hg', Function.update_self]
    have hother : ∀ c, c ≠ pos % cap.val → g' c = g c := fun c hc ↦ by
      rw [hg', Function.update_of_ne hc]
    have hfresh : ∀ out, (pos, out) ∉ r.pops := by
      intro out hm
      have hlt := (h.popped pos out hm).1
      omega
    have hcap := cap.pos
    refine
      { pushed := fun p f' hm ↦ ?_
        current := fun c hc f' hst ↦ ?_
        pushedOnce := by rw [hpush]; exact h.pushedOnce
        popped := fun p out hm ↦ ?_
        released := fun p hlt ↦ ?_
        poppedOnce := ?_ }
    · rw [hpush] at hm
      have hold := h.pushed p f' hm
      by_cases hcc : p % cap.val = pos % cap.val
      · rw [hcc, hself]
        rw [hcc] at hold
        left
        rcases hold with hlt | ⟨he, -⟩ <;> simp only <;> omega
      · rw [hother _ hcc]
        exact hold
    · by_cases hcc : c = pos % cap.val
      · rw [hcc, hself] at hst
        simp [Status.frame] at hst
      · rw [hother c hcc] at hst ⊢
        rw [hpush]
        exact h.current c hc f' hst
    · rw [hpop, List.mem_append, List.mem_singleton, Prod.mk.injEq] at hm
      rcases hm with hm | ⟨rfl, rfl⟩
      · obtain ⟨hlt, f', ho, hm'⟩ := h.popped p out hm
        refine ⟨?_, f', ho, by rwa [hpush]⟩
        by_cases hcc : p % cap.val = pos % cap.val
        · rw [hcc, hself]
          rw [hcc] at hlt
          simp only
          omega
        · rwa [hother _ hcc]
      · have hcur := h.current _ hc₀ f hsome
        rw [hg] at hcur
        exact ⟨by rw [hself]; simp only; omega, f, rfl, by rw [hpush]; exact hcur⟩
    · rw [hpop]
      by_cases hcc : p % cap.val = pos % cap.val
      · rw [hcc, hself] at hlt
        by_cases hpp : p = pos
        · exact ⟨some f, by simp [hpp]⟩
        · -- an earlier position of the cell, released in an earlier lap
          have hlt' : p < pos := by
            by_contra hge
            have hlap := mod_lap hcc.symm (by omega)
            simp only at hlt
            omega
          obtain ⟨out, hm⟩ := h.released p (by rw [hcc, hg]; exact hlt')
          exact ⟨out, List.mem_append_left _ hm⟩
      · rw [hother _ hcc] at hlt
        obtain ⟨out, hm⟩ := h.released p hlt
        exact ⟨out, List.mem_append_left _ hm⟩
    · rw [hpop, List.map_append]
      refine List.nodup_append.mpr ⟨h.poppedOnce, by simp, ?_⟩
      rintro p hm q hq rfl
      simp only [List.map_cons, List.map_nil, List.mem_singleton] at hq
      obtain ⟨⟨p', out⟩, hm', he⟩ := List.mem_map.mp hm
      simp only at he
      subst he
      exact hfresh out (hq ▸ hm')

end History

/-! ## The invariant of a ring under the most general client -/

section Invariant

variable {A F : Type} [DecidableEq A]

def Ret.popped? : Ret Nat F → Option (Nat × Option F)
  | .popped p out => some (p, out)
  | _ => none

/-- The value a pop is about to hand out, or has handed out. -/
def Loc.answer : Loc Nat F → Option (Nat × Option F)
  | .wake _ v | .ret v => v.popped?
  | _ => none

/-- The invariant of a ring whose clients respect its mode. -/
structure RingInv (cap : Capacity) (s : RingSys A F) : Prop where
  laps : ∃ g, Cells cap s g ∧ History cap s.ring g
  answers : ∀ a x, (s.loc a).answer = some x → x ∈ s.ring.pops

omit [DecidableEq A] in
theorem RingInv.start {cap : Capacity} (frames : Nat → F) :
    RingInv cap (RingSys.start (Ring.init frames) : RingSys A F) where
  laps := ⟨Lap.init, Cells.init cap frames, History.init frames⟩
  answers a x h := by simp [RingSys.start, Loc.answer] at h

omit [DecidableEq A] in
theorem Progress.pops_subset {cap : Capacity} {r r' : Ring Nat A F} {g g' : Nat → Lap A F}
    (h : Progress cap r r' g g') : r.pops ⊆ r'.pops := by
  cases h with
  | quiet _ hpop | publish _ _ _ _ _ _ hpop => rw [hpop]; exact List.Subset.refl _
  | release _ _ _ _ _ _ hpop => rw [hpop]; exact List.subset_append_left _ _

omit [DecidableEq A] in
theorem Enq.answers (k : Enq F) (spin pos : Nat) :
    (k.ready spin pos).answer = none ∧ (k.full spin).answer = none ∧
      (k.ahead spin).answer = none ∧ (k.lost spin).answer = none ∧
      (k.reserved pos).answer = none := by
  cases k with
  | push sp f =>
    cases sp <;> by_cases hs : spin < spinBudget <;>
      simp [Enq.ready, Enq.full, Enq.ahead, Enq.lost, Enq.reserved, Loc.answer, hs]
  | tryPush sp f =>
    cases sp <;> simp [Enq.ready, Enq.full, Enq.ahead, Enq.lost, Enq.reserved, Loc.answer, Ret.popped?]
  | claim => simp [Enq.ready, Enq.full, Enq.ahead, Enq.lost, Enq.reserved, Loc.answer, Ret.popped?]

omit [DecidableEq A] in
/-- The value a pop hands out has been noted in the history when the cell was released. -/
theorem Ring.step_answer {cap : Nat} {a : A} {spurious : Bool} {r r' : Ring Nat A F}
    {l l' : Loc Nat F} {x : Nat × Option F} (h : r.step cap a spurious l = some (r', l'))
    (hx : l'.answer = some x) : l.answer = some x ∨ x ∈ r'.pops := by
  cases l with
  | wake w v =>
    left
    cases w <;> simp only [Ring.step, Ring.wakeStep] at h <;> grind [Loc.answer, Ret.popped?]
  | wait q w k =>
    cases k <;> cases w <;> simp only [Ring.step, Ring.waitStep] at h <;>
      grind [Loc.answer, Ret.popped?, Resume.loc]
  | enqSeq k spin pos =>
    have hk := k.answers spin pos
    simp only [Ring.step] at h
    grind
  | enqCas k spin pos =>
    have hk := k.answers spin pos
    simp only [Ring.step] at h
    grind
  | popTake sc spin pos =>
    cases sc <;> simp only [Ring.step] at h <;> grind [Loc.answer, Ret.popped?]
  | _ =>
    simp only [Ring.step] at h
    grind [Loc.answer, Ret.popped?]

theorem RingInv.move {cap : Capacity} {s s' : RingSys A F} (h : RingInv cap s)
    (hx : Exclusive s.loc) (hm : Move cap s s') : RingInv cap s' := by
  obtain ⟨g, hc, hh⟩ := h.laps
  obtain ⟨g', hc', hp⟩ := hc.move hx hm
  have hsub := hp.pops_subset
  refine ⟨⟨g', hc', hh.progress hp⟩, fun b x hb ↦ ?_⟩
  cases hm with
  | access a spurious hs =>
    by_cases hba : b = a
    · subst hba
      simp only [Function.update_self] at hb
      rcases Ring.step_answer hs hb with hold | hnew
      · exact hsub (h.answers b x hold)
      · exact hnew
    · simp only [Function.update_of_ne hba] at hb
      exact hsub (h.answers b x hb)
  | client a hcl =>
    by_cases hba : b = a
    · subst hba
      simp only [Function.update_self] at hb
      generalize hl : s.loc b = l at hcl
      cases hcl with
      | enter he => cases he <;> simp [ringPush, ringTryPush, ringPop, ringClaim, ringClose,
          ringReopen, ringWaitSpace, ringDepth, Loc.answer] at hb
      | leave v => simp [Loc.answer] at hb
      | commit f pos => simp [ringCommit, Loc.answer] at hb
    · simp only [Function.update_of_ne hba] at hb
      exact h.answers b x hb

end Invariant

/-! ## Linearizability -/

section Linearized

variable {A F : Type}

/-- The observable meaning of the protocol: position `p` is filled once, taken once, in order, and
with one frame.  `pushes` and `pops` are the publications and the releases so far. -/
structure Linearized (cap : Capacity) (s : RingSys A F) : Prop where
  /-- A pop at position `p` returned the frame pushed at `p`; in particular not `NULL`. -/
  popped : ∀ p out, (p, out) ∈ s.ring.pops → ∃ f, out = some f ∧ (p, f) ∈ s.ring.pushes
  /-- What a pop call has returned, or is about to, is such a pop. -/
  returned : ∀ a x, (s.loc a).answer = some x → x ∈ s.ring.pops
  poppedOnce : (s.ring.pops.map Prod.fst).Nodup
  pushedOnce : (s.ring.pushes.map Prod.fst).Nodup
  /-- The positions popped are the ones before `dequeue_pos`, all of them but those of pops under
  way. -/
  taken : ∀ p, p < s.ring.dequeuePos ↔
    (∃ out, (p, out) ∈ s.ring.pops) ∨ ∃ a, (s.loc a).carries = some p
  /-- The positions filled are the ones before `enqueue_pos`, all of them but those of enqueues
  under way (and one more while `push_sp` has yet to advance `enqueue_pos`). -/
  filled : ∀ p, p < s.ring.enqueuePos →
    (∃ f, (p, f) ∈ s.ring.pushes) ∨ ∃ a, (s.loc a).owns = some p
  filledOnly : ∀ p f, (p, f) ∈ s.ring.pushes → p < s.ring.enqueuePos ∨
    (p = s.ring.enqueuePos ∧ ∃ a, (s.loc a).pending = some p)
  /-- A published frame stays in its cell until it is popped. -/
  waiting : ∀ p f, (p, f) ∈ s.ring.pushes → s.ring.dequeuePos ≤ p →
    (s.ring.cells (p % cap.val)).data = some f ∧ (s.ring.cells (p % cap.val)).sequence = p + 1
  /-- Also after `dequeue_pos` has moved, until the pop under way has read it. -/
  reading : ∀ a sc p, s.loc a = .popData sc p →
    ∃ f, (p, f) ∈ s.ring.pushes ∧ (s.ring.cells (p % cap.val)).data = some f
  read : ∀ a sc p out, s.loc a = .popClear sc p out ∨ s.loc a = .popStore sc p out →
    ∃ f, out = some f ∧ (p, f) ∈ s.ring.pushes
  /-- At most `capacity` published frames are unpopped. -/
  room : s.ring.pushes.length ≤ s.ring.pops.length + cap.val

variable {cap : Capacity} {s : RingSys A F} {g : Nat → Lap A F}

theorem Cells.lt_dequeue_of_released (hc : Cells cap s g) {p : Nat}
    (hp : p < (g (p % cap.val)).pos) : p < s.ring.dequeuePos := by
  have hcell := hc.cellAt p
  have hlap := mod_lap hcell.slot.symm hp
  have hlate := hcell.late
  omega

theorem Cells.lt_enqueue_or_pending (hc : Cells cap s g) {p : Nat}
    (hp : (g (p % cap.val)).past p) : p < s.ring.enqueuePos ∨
      (p = s.ring.enqueuePos ∧ ∃ a, (s.loc a).pending = some p) := by
  rcases hp with hlt | ⟨heq, hpub⟩
  · have hdeq := hc.lt_dequeue_of_released hlt
    rcases hc.lead with hle | ⟨he, b, hb⟩
    · exact Or.inl (by omega)
    · by_cases hpe : p = s.ring.enqueuePos
      · exact Or.inr ⟨hpe, b, hpe ▸ hb⟩
      · exact Or.inl (by omega)
  · have hst : (g (p % cap.val)).st ≠ .free := by
      intro hf
      rw [hf] at hpub
      cases hpub
    rcases (hc.cellAt p).busy hst with hlt | ⟨he, b, hb⟩
    · exact Or.inl (by omega)
    · refine Or.inr ⟨by omega, b, ?_⟩
      -- the publication under way has already published, so it only has to advance `enqueue_pos`
      rw [← heq] at hb
      have hloc := hc.locs b
      cases hb' : s.loc b with
      | pubEnq q => rw [hb'] at hb; exact hb
      | pubData sp f q | pubSeq sp f q =>
        rw [hb'] at hb hloc
        cases sp with
        | true =>
          simp only [Loc.spPos, Option.some.injEq] at hb
          subst hb
          rw [hloc.1] at hpub
          cases hpub
        | false => simp [Loc.spPos] at hb
      | _ => rw [hb'] at hb; simp [Loc.spPos] at hb

theorem Lap.published_frame {l : Lap A F} (h : l.st.published = true) :
    ∃ f, l.st.frame = some f := by
  rw [← Status.isSome_frame] at h
  exact Option.isSome_iff_exists.mp h

theorem History.past_pushed {r : Ring Nat A F} (hh : History cap r g) {p : Nat}
    (hp : (g (p % cap.val)).past p) : ∃ f, (p, f) ∈ r.pushes := by
  rcases hp with hlt | ⟨heq, hpub⟩
  · obtain ⟨out, hm⟩ := hh.released p hlt
    obtain ⟨-, f, -, hf⟩ := hh.popped p out hm
    exact ⟨f, hf⟩
  · obtain ⟨f, hf⟩ := Lap.published_frame hpub
    have hcur := hh.current _ (Nat.mod_lt _ cap.pos) f hf
    exact ⟨f, heq ▸ hcur⟩

theorem History.pushed_past {r : Ring Nat A F} (hh : History cap r g) {p : Nat} {f : F}
    (hm : (p, f) ∈ r.pushes) : (g (p % cap.val)).past p := by
  rcases hh.pushed p f hm with hlt | ⟨heq, hst⟩
  · exact Or.inl hlt
  · exact Or.inr ⟨heq, by rw [← Status.isSome_frame, hst]; rfl⟩

/-- The published positions are released ones, or the current positions of the cells. -/
theorem History.room {r : Ring Nat A F} (hh : History cap r g) :
    r.pushes.length ≤ r.pops.length + cap.val := by
  classical
  have hsub : (r.pushes.map Prod.fst).toFinset ⊆ (r.pops.map Prod.fst).toFinset ∪
      (Finset.range cap.val).image (fun c ↦ (g c).pos) := by
    intro p hp
    obtain ⟨⟨p', f⟩, hm, rfl⟩ := List.mem_map.mp (List.mem_toFinset.mp hp)
    rw [Finset.mem_union]
    rcases hh.pushed p' f hm with hlt | ⟨heq, -⟩
    · obtain ⟨out, ho⟩ := hh.released p' hlt
      exact Or.inl (List.mem_toFinset.mpr (List.mem_map.mpr ⟨_, ho, rfl⟩))
    · exact Or.inr (Finset.mem_image.mpr
        ⟨p' % cap.val, Finset.mem_range.mpr (Nat.mod_lt _ cap.pos), heq.symm⟩)
  calc r.pushes.length
      = (r.pushes.map Prod.fst).toFinset.card := by
        rw [List.toFinset_card_of_nodup hh.pushedOnce, List.length_map]
    _ ≤ _ := Finset.card_le_card hsub
    _ ≤ _ := Finset.card_union_le _ _
    _ ≤ r.pops.length + cap.val := by
        refine Nat.add_le_add ?_ (Finset.card_image_le.trans_eq (Finset.card_range _))
        exact (List.toFinset_card_le _).trans_eq (List.length_map _)

/-- Laps and history together are the observable meaning. -/
theorem Cells.linearized (hc : Cells cap s g) (hh : History cap s.ring g)
    (ha : ∀ a x, (s.loc a).answer = some x → x ∈ s.ring.pops) : Linearized cap s where
  popped p out hm := (hh.popped p out hm).2
  returned := ha
  poppedOnce := hh.poppedOnce
  pushedOnce := hh.pushedOnce
  taken p := by
    constructor
    · intro hlt
      rcases hc.past_of_lt_dequeue hlt with hl | ⟨heq, -⟩
      · exact Or.inl (hh.released p hl)
      · have hcell := hc.cellAt p
        have htaken := hcell.taken.mpr (by omega)
        cases hst : (g (p % cap.val)).st with
        | taken a f => exact Or.inr ⟨a, heq ▸ hcell.carrier a f hst⟩
        | _ => rw [hst] at htaken; cases htaken
    · rintro (⟨out, hm⟩ | ⟨a, hcar⟩)
      · exact hc.lt_dequeue_of_released (hh.popped p out hm).1
      · have hloc := hc.locs a
        have htaken : ∀ f, g (p % cap.val) = ⟨p, .taken a f⟩ → p < s.ring.dequeuePos := by
          intro f hg
          have hcell := hc.cellAt p
          rw [hg] at hcell
          exact hcell.taken.mp rfl
        cases hl : s.loc a with
        | popData sc q | popClear sc q out | popStore sc q out =>
          rw [hl] at hcar hloc
          simp only [Loc.carries, Option.some.injEq] at hcar
          subst hcar
          obtain ⟨f, hg, -⟩ := hloc
          exact htaken f hg
        | _ => rw [hl] at hcar; simp [Loc.carries] at hcar
  filled p hlt := by
    have hcell := hc.cellAt p
    by_cases hpast : (g (p % cap.val)).past p
    · exact Or.inl (hh.past_pushed hpast)
    · have hle : (g (p % cap.val)).pos ≤ p := by
        by_contra hgt
        exact hpast (Or.inl (by omega))
      have hpos : (g (p % cap.val)).pos = p := by
        have hlap := hcell.lap
        exact mod_window hcell.slot (by omega) (by omega)
      cases hst : (g (p % cap.val)).st with
      | free =>
        have hfree := hcell.free hst
        omega
      | reserved a => exact Or.inr ⟨a, hpos ▸ hcell.owner a hst⟩
      | full f => exact absurd (Or.inr ⟨hpos.symm, by rw [hst]; rfl⟩) hpast
      | taken a f => exact absurd (Or.inr ⟨hpos.symm, by rw [hst]; rfl⟩) hpast
  filledOnly p f hm := hc.lt_enqueue_or_pending (hh.pushed_past hm)
  waiting p f hm hle := by
    obtain ⟨f', hg⟩ := hc.full_of_past (hh.pushed_past hm) hle
    have hcell := hc.cellAt p
    have hcur := hh.current _ (Nat.mod_lt _ cap.pos) f' (by rw [hg]; rfl)
    rw [hg] at hcell hcur
    rw [hh.pushed_unique hm hcur]
    exact ⟨hcell.data f' rfl, hcell.seq⟩
  reading a sc p hl := by
    have hloc := hc.locs a
    rw [hl] at hloc
    obtain ⟨f, hg, hd⟩ := hloc
    have hcur := hh.current _ (Nat.mod_lt _ cap.pos) f (by rw [hg]; rfl)
    rw [hg] at hcur
    exact ⟨f, hcur, hd⟩
  read a sc p out hl := by
    have hloc := hc.locs a
    have hcur : ∀ f, g (p % cap.val) = ⟨p, .taken a f⟩ → (p, f) ∈ s.ring.pushes := by
      intro f hg
      have hm := hh.current _ (Nat.mod_lt _ cap.pos) f (by rw [hg]; rfl)
      rwa [hg] at hm
    rcases hl with hl | hl <;>
    · rw [hl] at hloc
      obtain ⟨f, hg, ho⟩ := hloc
      exact ⟨f, ho, hcur f hg⟩
  room := hh.room

theorem RingInv.linearized (h : RingInv cap s) : Linearized cap s := by
  obtain ⟨g, hc, hh⟩ := h.laps
  exact hc.linearized hh h.answers

variable [DecidableEq A]

/-- From the ring that `awp_ring_init` leaves, of any capacity. -/
theorem RingInv.run_init {mode : RingMode} {team : Team A} {frames : Nat → F}
    (hroles : Roles mode team)
    (hrun : Steps (rawStep cap mode) (inRole team) (.start (Ring.init frames)) s) :
    RingInv cap s ∧ Exclusive s.loc := by
  have hinv : RingInv cap s ∧ Roled mode team s.loc := by
    refine hrun.invariant (P := fun s ↦ RingInv cap s ∧ Roled mode team s.loc)
      (fun s x s' hs hok hst ↦ ?_) ⟨.start frames, .start⟩
    exact ⟨hs.1.move (hs.2.exclusive hroles) (rawStep_move hst), hs.2.step hok hst⟩
  exact ⟨hinv.1, hinv.2.exclusive hroles⟩

theorem RingInv.run {mode : RingMode} {team : Team A} {r : Ring Nat A F}
    {frames : Nat → F} {v : UInt32} (hroles : Roles mode team)
    (hinit : ringInit v frames = some (cap, r))
    (hrun : Steps (rawStep cap mode) (inRole team) (.start r) s) :
    RingInv cap s ∧ Exclusive s.loc := by
  rw [ringInit_eq hinit] at hrun
  exact RingInv.run_init hroles hrun

end Linearized

/-! ### A run through all of it -/

/-- One producer (`false`) and one consumer (`true`). -/
def pairTeam : Team Bool where
  producer a := a = false
  consumer a := a = true
  claimer _ := False

theorem pairTeam_roles (mode : RingMode) : Roles mode pairTeam where
  oneProducer _ a b ha hb := by
    rcases hb with hb | hb
    · exact ha.trans hb.symm
    · exact hb.elim
  oneConsumer _ a b ha hb := ha.trans hb.symm

instance (s : RingSys Bool Nat) (l : Bool × RawAct Nat) : Decidable (inRole pairTeam s l) := by
  obtain ⟨a, x⟩ := l
  cases x with
  | call c => cases c <;> unfold inRole Team.allows pairTeam <;> infer_instance
  | _ => exact isTrue trivial

/-- A push of a frame by `false`, to its end. -/
def pushOnce (f : Nat) : List (Bool × RawAct Nat) :=
  [(false, .call (.push f))] ++ List.replicate 7 (false, .access false) ++ [(false, .leave)]

/-- A pop by `true`, to its end. -/
def popOnce : List (Bool × RawAct Nat) :=
  [(true, .call .pop)] ++ List.replicate 7 (true, .access false) ++ [(true, .leave)]

end Awp
