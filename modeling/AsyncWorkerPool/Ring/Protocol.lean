import AsyncWorkerPool.Ring.Cells

/-!
# Protocol — every access keeps the cells at some laps

One lemma for each access that moves a lap, a position or a cell (reserve, write, publish,
advance; take, read, clear, release), one for all the others, and the case analysis of `Ring.step`
that puts them together.  `Progress` records what the access did to the laps and to the history.
-/

open Foundation

namespace Awp

section Progress

variable {A F : Type}

/-- The frame of a published position whose cell is not released yet. -/
def Status.frame : Status A F → Option F
  | .free | .reserved _ => none
  | .full f | .taken _ f => some f

@[simp] theorem Status.isSome_frame (st : Status A F) : st.frame.isSome = st.published := by
  cases st <;> rfl

variable (cap : Capacity)

/-- What one access does to the laps and to the history. -/
inductive Progress (r r' : Ring Nat A F) (g g' : Nat → Lap A F) : Prop where
  | quiet (hpush : r'.pushes = r.pushes) (hpop : r'.pops = r.pops)
      (hpos : ∀ c, (g' c).pos = (g c).pos) (hframe : ∀ c, (g' c).st.frame = (g c).st.frame)
  | publish (pos : Nat) (f : F) (hg : (g (pos % cap.val)).pos = pos)
      (hnone : (g (pos % cap.val)).st.frame = none)
      (hg' : g' = Function.update g (pos % cap.val) ⟨pos, .full f⟩)
      (hpush : r'.pushes = r.pushes ++ [(pos, f)]) (hpop : r'.pops = r.pops)
  | release (pos : Nat) (f : F) (hg : (g (pos % cap.val)).pos = pos)
      (hsome : (g (pos % cap.val)).st.frame = some f)
      (hg' : g' = Function.update g (pos % cap.val) ⟨pos + cap.val, .free⟩)
      (hpush : r'.pushes = r.pushes) (hpop : r'.pops = r.pops ++ [(pos, some f)])

/-- Laps that change status only, with the published frame kept, are no progress. -/
theorem Progress.of_update {r r' : Ring Nat A F} {g : Nat → Lap A F} {c : Nat} {l : Lap A F}
    (hpush : r'.pushes = r.pushes) (hpop : r'.pops = r.pops) (hpos : l.pos = (g c).pos)
    (hframe : l.st.frame = (g c).st.frame) : Progress cap r r' g (Function.update g c l) := by
  refine .quiet hpush hpop (fun d ↦ ?_) (fun d ↦ ?_)
  · by_cases hd : d = c
    · subst hd
      rw [Function.update_self, hpos]
    · rw [Function.update_of_ne hd]
  · by_cases hd : d = c
    · subst hd
      rw [Function.update_self, hframe]
    · rw [Function.update_of_ne hd]

end Progress

section Accesses

variable {A F : Type} [DecidableEq A] {cap : Capacity} {s : RingSys A F} {g : Nat → Lap A F}

/-- The rings that agree on positions, cells and history. -/
structure SameCells (r r' : Ring Nat A F) : Prop where
  enq : r'.enqueuePos = r.enqueuePos
  deq : r'.dequeuePos = r.dequeuePos
  cells : r'.cells = r.cells
  pushes : r'.pushes = r.pushes
  pops : r'.pops = r.pops

omit [DecidableEq A] in
theorem LocOk.congr {r r' : Ring Nat A F} (hr : SameCells r r') {a : A} {l : Loc Nat F}
    (h : LocOk cap r g a l) : LocOk cap r' g a l := by
  cases l <;> simp only [LocOk, hr.enq, hr.deq, hr.cells] at h ⊢ <;> exact h

/-- An access that leaves the cells alone and holds on to what the thread holds. -/
theorem Cells.neutral {a : A} {r' : Ring Nat A F} {l' : Loc Nat F} (h : Cells cap s g)
    (hr : SameCells s.ring r') (howns : l'.owns = (s.loc a).owns)
    (hsp : l'.spPos = (s.loc a).spPos) (hcar : l'.carries = (s.loc a).carries)
    (hpend : l'.pending = (s.loc a).pending) (hl : LocOk cap s.ring g a l') :
    Cells cap ⟨r', Function.update s.loc a l'⟩ g ∧ Progress cap s.ring r' g g := by
  have hkeep : ∀ {β : Type} (k : Loc Nat F → β), k l' = k (s.loc a) →
      ∀ b, k (Function.update s.loc a l' b) = k (s.loc b) := by
    intro β k hk b
    by_cases hb : b = a
    · subst hb
      rw [Function.update_self, hk]
    · rw [Function.update_of_ne hb]
  refine ⟨⟨fun c hc ↦ ?_, fun b ↦ ?_, ?_⟩, .quiet hr.pushes hr.pops (fun _ ↦ rfl) (fun _ ↦ rfl)⟩
  · have hcell := h.cell c hc
    exact
      { slot := hcell.slot
        seq := by simpa only [hr.cells] using hcell.seq
        late := by simpa only [hr.deq] using hcell.late
        taken := by simpa only [hr.deq] using hcell.taken
        free := by simpa only [hr.enq] using hcell.free
        lap := by simpa only [hr.enq] using hcell.lap
        busy := by simpa only [hr.enq, hkeep Loc.spPos hsp] using hcell.busy
        data := by simpa only [hr.cells] using hcell.data
        owner := by simpa only [hkeep Loc.owns howns] using hcell.owner
        carrier := by simpa only [hkeep Loc.carries hcar] using hcell.carrier }
  · by_cases hb : b = a
    · subst hb
      simpa only [Function.update_self] using hl.congr hr
    · simpa only [Function.update_of_ne hb] using (h.locs b).congr hr
  · simpa only [hr.enq, hr.deq, hkeep Loc.pending hpend] using h.lead

omit [DecidableEq A] in
/-- No single-producer publication is under way while another thread is inside an enqueue. -/
theorem Exclusive.no_spPos {a b : A} {p : Nat} (hx : Exclusive s.loc)
    (ha : (s.loc a).inEnq = true) (hsp : (s.loc a).spPos = none) :
    (s.loc b).spPos ≠ some p := by
  intro hb
  by_cases hba : b = a
  · rw [hba, hsp] at hb
    cases hb
  · rw [hx.enq b a hba (Loc.inEnqSp_of_spPos hb)] at ha
    cases ha

omit [DecidableEq A] in
/-- A producer that finds its cell waiting for the current `enqueue_pos` finds it free. -/
theorem Cells.free_at_enqueue {a : A} (h : Cells cap s g) (hx : Exclusive s.loc)
    (ha : (s.loc a).inEnq = true) (hsp : (s.loc a).spPos = none)
    (hle : s.ring.enqueuePos ≤ (g (s.ring.enqueuePos % cap.val)).pos) :
    g (s.ring.enqueuePos % cap.val) = ⟨s.ring.enqueuePos, .free⟩ := by
  have hc := h.cellAt s.ring.enqueuePos
  have hfree : (g (s.ring.enqueuePos % cap.val)).st = .free := by
    by_contra hne
    rcases hc.busy hne with hlt | ⟨-, b, hb⟩
    · omega
    · exact hx.no_spPos ha hsp hb
  have hdeq : s.ring.dequeuePos ≤ s.ring.enqueuePos := by
    rcases h.lead with hl | ⟨-, b, hb⟩
    · exact hl
    · exact absurd (Loc.spPos_of_pending hb) (hx.no_spPos ha hsp)
  have hlate := hc.late
  have hpos : (g (s.ring.enqueuePos % cap.val)).pos = s.ring.enqueuePos :=
    mod_window hc.slot (by omega) (by omega)
  rcases hg : g (s.ring.enqueuePos % cap.val) with ⟨pos, st⟩
  rw [hg] at hpos hfree
  simp only at hpos hfree
  rw [hpos, hfree]

omit [DecidableEq A] in
theorem NotOthers.free (a : A) (p : Nat) : NotOthers a (⟨p, .free⟩ : Lap A F) :=
  fun b _ ↦ by simp

omit [DecidableEq A] in
theorem NotOthers.full (a : A) (p : Nat) (f : F) : NotOthers a (⟨p, .full f⟩ : Lap A F) :=
  fun b _ ↦ by simp

omit [DecidableEq A] in
theorem NotOthers.reserved (a : A) (p : Nat) : NotOthers a (⟨p, .reserved a⟩ : Lap A F) :=
  fun b hb ↦ by simpa using hb.symm

omit [DecidableEq A] in
theorem NotOthers.taken (a : A) (p : Nat) (f : F) : NotOthers a (⟨p, .taken a f⟩ : Lap A F) :=
  fun b hb ↦ by simpa using fun h ↦ absurd h hb.symm

/-- `push_sp` and `try_push_sp` find the cell ready: from here on it is theirs. -/
theorem Cells.reserve_sp {a : A} {k : Enq F} {spin pos : Nat} {f : F} (h : Cells cap s g)
    (hx : Exclusive s.loc) (hl : s.loc a = .enqSeq k spin pos) (hk : k.sp = true)
    (hseq : (s.ring.cells (pos % cap.val)).sequence = pos) :
    ∃ g', Cells cap ⟨s.ring, Function.update s.loc a (.pubData true f pos)⟩ g' ∧
      Progress cap s.ring s.ring g g' := by
  have hloc := h.locs a
  rw [hl] at hloc
  have hpos : pos = s.ring.enqueuePos := hloc.2 hk
  have hread := (h.cellAt pos).seq_eq rfl hseq
  have hg : g (pos % cap.val) = ⟨pos, .free⟩ := by
    rw [hpos]
    exact h.free_at_enqueue hx (a := a) (by rw [hl]; rfl) (by rw [hl]; rfl)
      (by rw [← hpos]; exact hread.1.ge)
  have hcell := h.cellAt pos
  rw [hg] at hcell
  refine ⟨Function.update g (pos % cap.val) ⟨pos, .reserved a⟩,
    h.advance hx ?_ ?_ (Or.inr (by rw [hg]; exact NotOthers.free a pos)) (fun _ ↦ ?_) ?_ ?_,
    .of_update cap rfl rfl (by rw [hg]) (by rw [hg]; rfl)⟩
  · exact
      { cells := fun _ _ ↦ rfl, enq := Or.inl rfl, deq := Or.inl rfl
        spPos := by simp [hl, Loc.spPos], owns := by simp [hl, Loc.owns]
        carries := by simp [hl, Loc.carries] }
  · rw [hg]
    exact ⟨le_rfl, fun p hp ↦ by simpa [Lap.past, Status.published] using hp⟩
  · exact
      { slot := rfl
        seq := by simpa [Lap.seq, Status.published] using hseq
        late := hcell.late
        taken := by simpa [Status.isTaken] using hcell.taken
        free := by simp
        lap := hcell.lap
        busy := fun _ ↦ Or.inr ⟨hpos, a, by simp [Loc.spPos]⟩
        data := by simp
        owner := fun b hb ↦ by
          injection hb with hb
          simp [← hb, Loc.owns]
        carrier := by simp }
  · exact ⟨by rw [Function.update_self], fun _ ↦ hpos⟩
  · rcases h.lead with hlead | ⟨hlead, b, hb⟩
    · exact Or.inl hlead
    · refine Or.inr ⟨hlead, b, ?_⟩
      have hba : b ≠ a := by
        rintro rfl
        simp [hl, Loc.pending] at hb
      rw [Function.update_of_ne hba]
      exact hb

/-- The compare-exchange of `push_mp`, `try_push_mp` and the inlined reservation succeeds. -/
theorem Cells.reserve_mp {a : A} {k : Enq F} {spin pos : Nat} {l' : Loc Nat F}
    (h : Cells cap s g) (hx : Exclusive s.loc) (hl : s.loc a = .enqCas k spin pos)
    (heq : s.ring.enqueuePos = pos) (howns : l'.owns = some pos)
    (hloc' : ∀ r' g', g' (pos % cap.val) = ⟨pos, .reserved a⟩ → LocOk cap r' g' a l') :
    ∃ g', Cells cap ⟨{ s.ring with enqueuePos := pos + 1 }, Function.update s.loc a l'⟩ g' ∧
      Progress cap s.ring { s.ring with enqueuePos := pos + 1 } g g' := by
  have hloc := h.locs a
  rw [hl] at hloc
  have hin : (s.loc a).inEnq = true := by rw [hl]; rfl
  have hnosp : (s.loc a).spPos = none := by rw [hl]; rfl
  have hg : g (pos % cap.val) = ⟨pos, .free⟩ := by
    rw [← heq]
    exact h.free_at_enqueue hx hin hnosp (by rw [heq]; exact hloc.2.1)
  have hcell := h.cellAt pos
  rw [hg] at hcell
  refine ⟨Function.update g (pos % cap.val) ⟨pos, .reserved a⟩,
    h.advance hx ?_ ?_ (Or.inr (by rw [hg]; exact NotOthers.free a pos)) (fun _ ↦ ?_)
      (hloc' _ _ (by rw [Function.update_self])) ?_,
    .of_update cap rfl rfl (by rw [hg]) (by rw [hg]; rfl)⟩
  · exact
      { cells := fun _ _ ↦ rfl
        enq := Or.inr ⟨by simp [heq], by rw [heq], hin⟩, deq := Or.inl rfl
        spPos := by simp [hl, Loc.spPos], owns := by simp [hl, Loc.owns]
        carries := by simp [hl, Loc.carries] }
  · rw [hg]
    exact ⟨le_rfl, fun p hp ↦ by simpa [Lap.past, Status.published] using hp⟩
  · have htwo := cap.two_le
    exact
      { slot := rfl
        seq := by simpa [Lap.seq, Status.published] using hcell.seq
        late := hcell.late
        taken := by simpa [Status.isTaken] using hcell.taken
        free := by simp
        lap := by simp only; omega
        busy := fun _ ↦ Or.inl (by simp)
        data := by simp
        owner := fun b hb ↦ by
          injection hb with hb
          simp [← hb, howns]
        carrier := by simp }
  · rcases h.lead with hlead | ⟨-, b, hb⟩
    · exact Or.inl (by simp only; omega)
    · exact absurd (Loc.spPos_of_pending hb) (hx.no_spPos hin hnosp)

omit [DecidableEq A] in
/-- A reserved position that no single-producer publication claims lies before `enqueue_pos`. -/
theorem Cells.lt_enqueue_of_busy {a : A} {c p : Nat} {l : Lap A F} (hc : CellOk cap s c l)
    (hx : Exclusive s.loc) (hin : (s.loc a).inEnq = true) (hsp : (s.loc a).spPos = none)
    (hp : l.pos = p) (hst : l.st ≠ .free) : p < s.ring.enqueuePos := by
  rcases hc.busy hst with hlt | ⟨-, b, hb⟩
  · exact hp ▸ hlt
  · exact absurd hb (hx.no_spPos hin hsp)

/-- `cell->data = frame`. -/
theorem Cells.write {a : A} {sp : Bool} {f : F} {pos : Nat} (h : Cells cap s g)
    (hx : Exclusive s.loc) (hl : s.loc a = .pubData sp f pos) :
    let r' := s.ring.setCell cap.val pos { s.ring.cell cap.val pos with data := some f }
    ∃ g', Cells cap ⟨r', Function.update s.loc a (.pubSeq sp f pos)⟩ g' ∧
      Progress cap s.ring r' g g' := by
  intro r'
  have hr : r'.cells = Function.update s.ring.cells (pos % cap.val)
      { s.ring.cells (pos % cap.val) with data := some f } := by
    simp [r', Ring.setCell, Ring.cell]
  have hloc := h.locs a
  rw [hl] at hloc
  have hg := hloc.1
  have hcell := h.cellAt pos
  rw [hg] at hcell
  refine ⟨Function.update g (pos % cap.val) ⟨pos, .reserved a⟩,
    h.advance hx ?_ ?_ (Or.inr (by rw [hg]; exact NotOthers.reserved a pos)) (fun _ ↦ ?_) ?_ ?_,
    .of_update cap rfl rfl (by rw [hg]) (by rw [hg])⟩
  · exact
      { cells := fun c hc ↦ by rw [hr, Function.update_of_ne hc]
        enq := Or.inl rfl, deq := Or.inl rfl
        spPos := by simp [hl, Loc.spPos]; cases sp <;> simp
        owns := by simp [hl, Loc.owns], carries := by simp [hl, Loc.carries] }
  · rw [hg]
    exact Advance.self
  · exact
      { slot := rfl
        seq := by
          simp only [hr, Function.update_self]
          exact hcell.seq
        late := hcell.late
        taken := hcell.taken
        free := by simp
        lap := hcell.lap
        busy := fun hf ↦ by
          rcases hcell.busy hf with hlt | ⟨he, b, hb⟩
          · exact Or.inl hlt
          · refine Or.inr ⟨he, b, ?_⟩
            show (Function.update s.loc a _ b).spPos = _
            by_cases hba : b = a
            · subst hba
              rw [hl] at hb
              rw [Function.update_self]
              cases sp <;> simp_all [Loc.spPos]
            · rwa [Function.update_of_ne hba]
        data := by simp
        owner := fun b hb ↦ by
          injection hb with hb
          simp [← hb, Loc.owns]
        carrier := by simp }
  · exact ⟨by rw [Function.update_self], hloc.2, by rw [hr, Function.update_self]⟩
  · rcases h.lead with hlead | ⟨hlead, b, hb⟩
    · exact Or.inl hlead
    · refine Or.inr ⟨hlead, b, ?_⟩
      have hba : b ≠ a := by
        rintro rfl
        simp [hl, Loc.pending] at hb
      rw [Function.update_of_ne hba]
      exact hb

/-- `cell->sequence = pos + 1`: the position is published. -/
theorem Cells.publish {a : A} {sp : Bool} {f : F} {pos : Nat} (h : Cells cap s g)
    (hx : Exclusive s.loc) (hl : s.loc a = .pubSeq sp f pos) :
    let r₁ := s.ring.setCell cap.val pos { s.ring.cell cap.val pos with sequence := pos + 1 }
    let r' := { r₁ with pushes := s.ring.pushes ++ [(pos, f)] }
    let l' : Loc Nat F := if sp then .pubEnq pos else .wake .load (.rc 0)
    ∃ g', Cells cap ⟨r', Function.update s.loc a l'⟩ g' ∧ Progress cap s.ring r' g g' := by
  intro r₁ r' l'
  have hr : r'.cells = Function.update s.ring.cells (pos % cap.val)
      { s.ring.cells (pos % cap.val) with sequence := pos + 1 } := by
    simp [r', r₁, Ring.setCell, Ring.cell]
  have hloc := h.locs a
  rw [hl] at hloc
  obtain ⟨hg, hspe, hdata⟩ := hloc
  have hcell := h.cellAt pos
  rw [hg] at hcell
  have hsp' : sp = true → l' = .pubEnq pos := fun hsp ↦ by simp [l', hsp]
  have hmp' : sp = false → l' = .wake .load (.rc 0) := fun hsp ↦ by simp [l', hsp]
  refine ⟨Function.update g (pos % cap.val) ⟨pos, .full f⟩,
    h.advance hx ?_ ?_ (Or.inr (by rw [hg]; exact NotOthers.reserved a pos)) (fun _ ↦ ?_) ?_ ?_,
    .publish pos f (by rw [hg]) (by rw [hg]; rfl) rfl rfl rfl⟩
  · refine
      { cells := fun c hc ↦ by rw [hr, Function.update_of_ne hc]
        enq := Or.inl rfl, deq := Or.inl rfl
        spPos := ?_, owns := by simp [hl, Loc.owns], carries := by simp [hl, Loc.carries] }
    cases sp with
    | true => simp [hl, Loc.spPos, hsp']
    | false => simp [hl, Loc.spPos]
  · rw [hg]
    exact ⟨le_rfl, fun p hp ↦ Or.inl (by simpa [Lap.past, Status.published] using hp)⟩
  · exact
      { slot := rfl
        seq := by simp [hr, Lap.seq, Status.published]
        late := hcell.late
        taken := by simpa [Status.isTaken, r', r₁, Ring.setCell] using hcell.taken
        free := by simp
        lap := hcell.lap
        busy := fun _ ↦ by
          cases sp with
          | true => exact Or.inr ⟨hspe rfl, a, by simp [hsp' rfl, Loc.spPos]⟩
          | false =>
            exact Or.inl (Cells.lt_enqueue_of_busy (s := s) (a := a) hcell hx (by rw [hl]; rfl)
              (by rw [hl]; rfl) rfl (by simp))
        data := fun f' hf ↦ by
          injection hf with hf
          simp [hr, hdata, hf]
        owner := by simp
        carrier := by simp }
  · cases sp with
    | true =>
      rw [hsp' rfl]
      exact ⟨hspe rfl, by rw [Function.update_self]; exact Or.inr ⟨rfl, rfl⟩⟩
    | false =>
      rw [hmp' rfl]
      trivial
  · rcases h.lead with hlead | ⟨hlead, b, hb⟩
    · exact Or.inl hlead
    · refine Or.inr ⟨hlead, b, ?_⟩
      have hba : b ≠ a := by
        rintro rfl
        simp [hl, Loc.pending] at hb
      rw [Function.update_of_ne hba]
      exact hb

/-- `push_sp` advances `enqueue_pos` past the position it has published. -/
theorem Cells.advance_enq {a : A} {pos : Nat} (h : Cells cap s g)
    (hx : Exclusive s.loc) (hl : s.loc a = .pubEnq pos) :
    let r' := { s.ring with enqueuePos := pos + 1 }
    ∃ g', Cells cap ⟨r', Function.update s.loc a (.wake .load (.rc 0))⟩ g' ∧
      Progress cap s.ring r' g g' := by
  intro r'
  have hloc := h.locs a
  rw [hl] at hloc
  obtain ⟨hpos, hpast⟩ := hloc
  have hcell := h.cellAt pos
  have hle : pos ≤ (g (pos % cap.val)).pos := by rcases hpast with hlt | ⟨he, -⟩ <;> omega
  have hother : ∀ b, b ≠ a → (s.loc b).inEnq = false := fun b hb ↦
    hx.enq a b hb.symm (by rw [hl]; rfl)
  refine ⟨Function.update g (pos % cap.val) (g (pos % cap.val)),
    h.advance hx ?_ Advance.self (Or.inl ⟨rfl, rfl⟩) (fun _ ↦ ?_) trivial ?_,
    .of_update cap rfl rfl rfl rfl⟩
  · exact
      { cells := fun _ _ ↦ rfl
        enq := Or.inr ⟨by simp [r', hpos], by rw [hpos], by rw [hl]; rfl⟩, deq := Or.inl rfl
        spPos := fun p _ ↦ Or.inr (by simp [r', hpos])
        owns := by simp [hl, Loc.owns], carries := by simp [hl, Loc.carries] }
  · have htwo := cap.two_le
    refine
      { slot := hcell.slot
        seq := hcell.seq
        late := hcell.late
        taken := hcell.taken
        free := fun hf ↦ ?_
        lap := by simp only [r']; omega
        busy := fun hf ↦ ?_
        data := hcell.data
        owner := fun b hb ↦ ?_
        carrier := fun b f hb ↦ ?_ }
    · rcases hpast with hlt | ⟨-, hpub⟩
      · exact hlt
      · rw [hf] at hpub
        cases hpub
    · left
      rcases hcell.busy hf with hlt | ⟨he, -⟩ <;> simp only [r'] <;> omega
    · have ho := hcell.owner b hb
      by_cases hba : b = a
      · rw [hba, hl] at ho
        cases ho
      · simpa only [Function.update_of_ne hba] using ho
    · have ho := hcell.carrier b f hb
      by_cases hba : b = a
      · rw [hba, hl] at ho
        cases ho
      · simpa only [Function.update_of_ne hba] using ho
  · left
    rcases h.lead with hlead | ⟨hlead, -⟩ <;> simp only [r'] <;> omega

/-- `dequeue_pos` moves past the position at hand, by the store of `pop_sc` or the successful
compare-exchange of `pop_mc`. -/
theorem Cells.take {a : A} {sc : Bool} {spin pos : Nat} (h : Cells cap s g)
    (hx : Exclusive s.loc) (hl : s.loc a = .popTake sc spin pos)
    (hpos : pos = s.ring.dequeuePos) :
    let r' := { s.ring with dequeuePos := pos + 1 }
    ∃ g', Cells cap ⟨r', Function.update s.loc a (.popData sc pos)⟩ g' ∧
      Progress cap s.ring r' g g' := by
  intro r'
  have hloc := h.locs a
  rw [hl] at hloc
  obtain ⟨f, hg⟩ := h.full_of_past hloc.2.2 hpos.ge
  have hcell := h.cellAt pos
  rw [hg] at hcell
  have hupd : ∀ b, b ≠ a →
      Function.update s.loc a (.popData sc pos) b = s.loc b := fun b hb ↦
    Function.update_of_ne hb _ _
  refine ⟨Function.update g (pos % cap.val) ⟨pos, .taken a f⟩,
    h.advance hx ?_ ?_ (Or.inr (by rw [hg]; exact NotOthers.full a pos f)) (fun _ ↦ ?_) ?_ ?_,
    .of_update cap rfl rfl (by rw [hg]) (by rw [hg]; rfl)⟩
  · exact
      { cells := fun _ _ ↦ rfl, enq := Or.inl rfl
        deq := Or.inr ⟨by simp [r', hpos], by rw [hpos], by rw [hl]; rfl⟩
        spPos := by simp [hl, Loc.spPos], owns := by simp [hl, Loc.owns]
        carries := by simp [hl, Loc.carries] }
  · rw [hg]
    exact ⟨le_rfl, fun p hp ↦ by simpa [Lap.past, Status.published] using hp⟩
  · refine
      { slot := rfl
        seq := by simpa [Lap.seq, Status.published] using hcell.seq
        late := by simp only [r']; omega
        taken := by simp [Status.isTaken, r']
        free := by simp
        lap := hcell.lap
        busy := fun _ ↦ ?_
        data := by simp
        owner := by simp
        carrier := fun b f' hb ↦ by
          injection hb with hb
          simp [← hb, Loc.carries] }
    rcases hcell.busy (by simp) with hlt | ⟨he, b, hb⟩
    · exact Or.inl hlt
    · refine Or.inr ⟨he, b, ?_⟩
      have hba : b ≠ a := by
        rintro rfl
        simp [hl, Loc.spPos] at hb
      simpa only [Function.update_of_ne hba] using hb
  · exact ⟨f, by rw [Function.update_self], hcell.data f rfl⟩
  · rcases hcell.busy (by simp) with hlt | ⟨he, b, hb⟩
    · left
      simp only [r'] at hlt ⊢
      omega
    · -- the position was published by a `push_sp` that has not advanced `enqueue_pos` yet
      right
      have hba : b ≠ a := by
        rintro rfl
        simp [hl, Loc.spPos] at hb
      refine ⟨by simp only [r'] at he ⊢; omega, b, ?_⟩
      rw [hupd b hba]
      have hlb := h.locs b
      cases hb' : s.loc b with
      | pubEnq p =>
        rw [hb'] at hb
        simp only [Loc.spPos, Option.some.injEq] at hb
        simp only [Loc.pending, r', hb]
        simpa using he
      | pubData sp f' p =>
        rw [hb'] at hb hlb
        cases sp with
        | true =>
          simp only [Loc.spPos, Option.some.injEq] at hb
          subst hb
          have hg' := hlb.1
          rw [hg] at hg'
          simp at hg'
        | false => simp [Loc.spPos] at hb
      | pubSeq sp f' p =>
        rw [hb'] at hb hlb
        cases sp with
        | true =>
          simp only [Loc.spPos, Option.some.injEq] at hb
          subst hb
          have hg' := hlb.1
          rw [hg] at hg'
          simp at hg'
        | false => simp [Loc.spPos] at hb
      | _ => rw [hb'] at hb; simp [Loc.spPos] at hb

/-- `cell->data = NULL`. -/
theorem Cells.clear {a : A} {sc : Bool} {pos : Nat} {out : Option F} (h : Cells cap s g)
    (hx : Exclusive s.loc) (hl : s.loc a = .popClear sc pos out) :
    let r' := s.ring.setCell cap.val pos { s.ring.cell cap.val pos with data := none }
    ∃ g', Cells cap ⟨r', Function.update s.loc a (.popStore sc pos out)⟩ g' ∧
      Progress cap s.ring r' g g' := by
  intro r'
  have hr : r'.cells = Function.update s.ring.cells (pos % cap.val)
      { s.ring.cells (pos % cap.val) with data := none } := by
    simp [r', Ring.setCell, Ring.cell]
  have hloc := h.locs a
  rw [hl] at hloc
  obtain ⟨f, hg, hout⟩ := hloc
  have hcell := h.cellAt pos
  rw [hg] at hcell
  refine ⟨Function.update g (pos % cap.val) ⟨pos, .taken a f⟩,
    h.advance hx ?_ ?_ (Or.inr (by rw [hg]; exact NotOthers.taken a pos f)) (fun _ ↦ ?_) ?_ ?_,
    .of_update cap rfl rfl (by rw [hg]) (by rw [hg])⟩
  · exact
      { cells := fun c hc ↦ by rw [hr, Function.update_of_ne hc]
        enq := Or.inl rfl, deq := Or.inl rfl
        spPos := by simp [hl, Loc.spPos]
        owns := by simp [hl, Loc.owns], carries := by simp [hl, Loc.carries] }
  · rw [hg]
    exact Advance.self
  · exact
      { slot := rfl
        seq := by
          simp only [hr, Function.update_self]
          exact hcell.seq
        late := hcell.late
        taken := hcell.taken
        free := by simp
        lap := hcell.lap
        busy := fun hf ↦ by
          rcases hcell.busy hf with hlt | ⟨he, b, hb⟩
          · exact Or.inl hlt
          · refine Or.inr ⟨he, b, ?_⟩
            have hba : b ≠ a := by
              rintro rfl
              simp [hl, Loc.spPos] at hb
            simpa only [Function.update_of_ne hba] using hb
        data := by simp
        owner := by simp
        carrier := fun b f' hb ↦ by
          injection hb with hb
          simp [← hb, Loc.carries] }
  · exact ⟨f, by rw [Function.update_self], hout⟩
  · rcases h.lead with hlead | ⟨hlead, b, hb⟩
    · exact Or.inl hlead
    · refine Or.inr ⟨hlead, b, ?_⟩
      have hba : b ≠ a := by
        rintro rfl
        simp [hl, Loc.pending] at hb
      rw [Function.update_of_ne hba]
      exact hb

/-- `cell->sequence = pos + capacity`: the cell is free for the next lap. -/
theorem Cells.release {a : A} {sc : Bool} {pos : Nat} {out : Option F} (h : Cells cap s g)
    (hx : Exclusive s.loc) (hl : s.loc a = .popStore sc pos out) :
    let r₁ := s.ring.setCell cap.val pos
      { s.ring.cell cap.val pos with sequence := pos + cap.val }
    let r' := { r₁ with pops := s.ring.pops ++ [(pos, out)] }
    ∃ g', Cells cap ⟨r', Function.update s.loc a (.wake .load (.popped pos out))⟩ g' ∧
      Progress cap s.ring r' g g' := by
  intro r₁ r'
  have hr : r'.cells = Function.update s.ring.cells (pos % cap.val)
      { s.ring.cells (pos % cap.val) with sequence := pos + cap.val } := by
    simp [r', r₁, Ring.setCell, Ring.cell]
  have hloc := h.locs a
  rw [hl] at hloc
  obtain ⟨f, hg, hout⟩ := hloc
  have hcell := h.cellAt pos
  rw [hg] at hcell
  have hdeq : s.ring.dequeuePos ≤ pos + cap.val := by
    have hlap : s.ring.enqueuePos ≤ pos + cap.val := hcell.lap
    rcases h.lead with hlead | ⟨hlead, b, hb⟩
    · omega
    · -- a pending publication a whole lap ahead would need this very cell
      have hne : s.ring.enqueuePos ≠ pos + cap.val := by
        intro he
        cases hb' : s.loc b with
        | pubEnq p =>
          have hlb := h.locs b
          rw [hb'] at hb hlb
          simp only [Loc.pending, Option.some.injEq] at hb
          have hpast := hlb.2
          rw [hb, he, Nat.add_mod_right, hg] at hpast
          have hpos := cap.pos
          rcases hpast with hlt | ⟨heq, -⟩ <;> simp only at * <;> omega
        | _ => rw [hb'] at hb; simp [Loc.pending] at hb
      omega
  refine ⟨Function.update g (pos % cap.val) ⟨pos + cap.val, .free⟩,
    h.advance hx ?_ ?_ (Or.inr (by rw [hg]; exact NotOthers.taken a pos f)) (fun _ ↦ ?_)
      trivial ?_,
    .release pos f (by rw [hg]) (by rw [hg]; rfl) rfl rfl (by simp [r', hout])⟩
  · exact
      { cells := fun c hc ↦ by rw [hr, Function.update_of_ne hc]
        enq := Or.inl rfl, deq := Or.inl rfl
        spPos := by simp [hl, Loc.spPos]
        owns := by simp [hl, Loc.owns], carries := by simp [hl, Loc.carries] }
  · rw [hg]
    have hpos := cap.pos
    exact ⟨by simp, fun p hp ↦ Or.inl (by rcases hp with hlt | ⟨he, -⟩ <;> simp only at * <;> omega)⟩
  · have hlt : pos < s.ring.dequeuePos := hcell.taken.mp rfl
    exact
      { slot := by simp
        seq := by simp [hr, Lap.seq, Status.published]
        late := by simpa [r', r₁, Ring.setCell] using hlt
        taken := by simpa [Status.isTaken, r', r₁, Ring.setCell] using hdeq
        free := fun _ ↦ by simpa [r', r₁, Ring.setCell] using hcell.lap
        lap := by
          have hlap : s.ring.enqueuePos ≤ pos + cap.val := hcell.lap
          simp only [r', r₁, Ring.setCell]
          omega
        busy := by simp
        data := by simp
        owner := by simp
        carrier := by simp }
  · rcases h.lead with hlead | ⟨hlead, b, hb⟩
    · exact Or.inl hlead
    · refine Or.inr ⟨hlead, b, ?_⟩
      have hba : b ≠ a := by
        rintro rfl
        simp [hl, Loc.pending] at hb
      rw [Function.update_of_ne hba]
      exact hb

end Accesses

/-! ## The case analysis -/

section Step

variable {A F : Type} [DecidableEq A] {cap : Capacity} {s : RingSys A F} {g : Nat → Lap A F}

/-- Everything a location says about who holds which cell. -/
def Loc.holds (l : Loc Nat F) : Option Nat × Option Nat × Option Nat × Option Nat :=
  (l.owns, l.spPos, l.carries, l.pending)

/-- `Cells.neutral`, for a thread whose location is known. -/
theorem Cells.keep {a : A} {r' : Ring Nat A F} {l l' : Loc Nat F} (h : Cells cap s g)
    (hl : s.loc a = l) (hr : SameCells s.ring r') (hh : l'.holds = l.holds)
    (hloc : LocOk cap s.ring g a l') :
    ∃ g', Cells cap ⟨r', Function.update s.loc a l'⟩ g' ∧ Progress cap s.ring r' g g' := by
  simp only [Loc.holds, Prod.mk.injEq] at hh
  obtain ⟨howns, hsp, hcar, hpend⟩ := hh
  subst hl
  exact ⟨g, h.neutral hr howns hsp hcar hpend hloc⟩

omit [DecidableEq A] in
theorem SameCells.refl (r : Ring Nat A F) : SameCells r r := ⟨rfl, rfl, rfl, rfl, rfl⟩

omit [DecidableEq A] in
/-- The mutex and condition-variable code stays away from the cells. -/
theorem SameCells.wakeStep {a : A} {w : Wake} {x : Ret Nat F} {r r' : Ring Nat A F}
    {l' : Loc Nat F} (h : r.wakeStep a x w = some (r', l')) :
    SameCells r r' ∧ l'.holds = (Loc.idle : Loc Nat F).holds ∧
      ((∃ w', l' = .wake w' x) ∨ l' = .ret x) := by
  cases w with
  | load =>
    simp only [Ring.wakeStep, Option.some.injEq, Prod.mk.injEq] at h
    obtain ⟨rfl, rfl⟩ := h
    split <;> exact ⟨⟨rfl, rfl, rfl, rfl, rfl⟩, rfl, by simp⟩
  | lock =>
    simp only [Ring.wakeStep] at h
    split at h
    · simp only [Option.some.injEq, Prod.mk.injEq] at h
      obtain ⟨rfl, rfl⟩ := h
      exact ⟨⟨rfl, rfl, rfl, rfl, rfl⟩, rfl, by simp⟩
    · cases h
  | broadcast | unlock =>
    simp only [Ring.wakeStep, Option.some.injEq, Prod.mk.injEq] at h
    obtain ⟨rfl, rfl⟩ := h
    exact ⟨⟨rfl, rfl, rfl, rfl, rfl⟩, rfl, by simp⟩

omit [DecidableEq A] in
theorem Resume.loc_holds (k : Resume F) :
    (k.loc : Loc Nat F).holds = (Loc.idle : Loc Nat F).holds := by
  cases k <;> rfl

omit [DecidableEq A] in
theorem SameCells.waitStep {a : A} {spurious : Bool} {q : WaitFor} {k : Resume F} {w : Wait Nat}
    {r r' : Ring Nat A F} {l' : Loc Nat F}
    (h : r.waitStep cap.val a spurious q k w = some (r', l')) :
    SameCells r r' ∧ l'.holds = (Loc.idle : Loc Nat F).holds ∧
      ((∃ w', l' = .wait q w' k) ∨ l' = k.loc) := by
  cases w with
  | lock | relock =>
    simp only [Ring.waitStep] at h
    split at h
    · simp only [Option.some.injEq, Prod.mk.injEq] at h
      obtain ⟨rfl, rfl⟩ := h
      exact ⟨⟨rfl, rfl, rfl, rfl, rfl⟩, rfl, by simp⟩
    · cases h
  | ldClosed =>
    simp only [Ring.waitStep, Option.some.injEq, Prod.mk.injEq] at h
    obtain ⟨rfl, rfl⟩ := h
    split <;> exact ⟨⟨rfl, rfl, rfl, rfl, rfl⟩, rfl, by simp⟩
  | ldDeq enq =>
    simp only [Ring.waitStep] at h
    split at h <;>
    · simp only [Option.some.injEq, Prod.mk.injEq] at h
      obtain ⟨rfl, rfl⟩ := h
      exact ⟨⟨rfl, rfl, rfl, rfl, rfl⟩, rfl, by simp⟩
  | blocked ticket =>
    simp only [Ring.waitStep] at h
    split at h
    · simp only [Option.some.injEq, Prod.mk.injEq] at h
      obtain ⟨rfl, rfl⟩ := h
      exact ⟨⟨rfl, rfl, rfl, rfl, rfl⟩, rfl, by simp⟩
    · cases h
  | inc | ldEnq | sleep | unlock =>
    simp only [Ring.waitStep, Option.some.injEq, Prod.mk.injEq] at h
    obtain ⟨rfl, rfl⟩ := h
    exact ⟨⟨rfl, rfl, rfl, rfl, rfl⟩, rfl, by simp⟩
  | dec =>
    simp only [Ring.waitStep, Option.some.injEq, Prod.mk.injEq] at h
    obtain ⟨rfl, rfl⟩ := h
    exact ⟨⟨rfl, rfl, rfl, rfl, rfl⟩, k.loc_holds, by simp⟩

omit [DecidableEq A] in
theorem LocOk.resume {r : Ring Nat A F} {a : A} (k : Resume F) : LocOk cap r g a k.loc := by
  cases k <;> trivial

/-- The load of the cell's sequence in the enqueue loop, and what the loop makes of it. -/
theorem Cells.read_enq {a : A} {k : Enq F} {spin pos : Nat} (h : Cells cap s g)
    (hx : Exclusive s.loc) (hl : s.loc a = .enqSeq k spin pos) :
    let dif : Int := (s.ring.cells (pos % cap.val)).sequence - (pos : Int)
    let l' : Loc Nat F :=
      if dif = 0 then k.ready spin pos else if dif < 0 then k.full spin else k.ahead spin
    ∃ g', Cells cap ⟨s.ring, Function.update s.loc a l'⟩ g' ∧
      Progress cap s.ring s.ring g g' := by
  intro dif l'
  have hr := SameCells.refl s.ring
  have hloc := h.locs a
  rw [hl] at hloc
  by_cases h0 : dif = 0
  · have hseq : (s.ring.cells (pos % cap.val)).sequence = pos := by omega
    have hpos := ((h.cellAt pos).seq_eq rfl hseq).1.ge
    have hl' : l' = k.ready spin pos := if_pos h0
    rw [hl']
    cases k with
    | push sp f | tryPush sp f =>
      cases sp with
      | true => exact h.reserve_sp hx hl rfl hseq
      | false => exact h.keep hl hr rfl ⟨hloc.1, hpos, rfl⟩
    | claim => exact h.keep hl hr rfl ⟨hloc.1, hpos, rfl⟩
  · have hl' : l' = if dif < 0 then k.full spin else k.ahead spin := if_neg h0
    rw [hl']
    split
    · cases k with
      | push sp f =>
        rw [Enq.full]
        split <;> exact h.keep hl hr rfl trivial
      | tryPush sp f | claim => exact h.keep hl hr rfl trivial
    · cases k <;> exact h.keep hl hr rfl trivial

/-- The compare-exchange on `enqueue_pos`. -/
theorem Cells.cas_enq {a : A} {k : Enq F} {spin pos : Nat} {spurious : Bool} (h : Cells cap s g)
    (hx : Exclusive s.loc) (hl : s.loc a = .enqCas k spin pos) {r' : Ring Nat A F}
    {l' : Loc Nat F}
    (hs : s.ring.step cap.val a spurious (.enqCas k spin pos) = some (r', l')) :
    ∃ g', Cells cap ⟨r', Function.update s.loc a l'⟩ g' ∧ Progress cap s.ring r' g g' := by
  have hloc := h.locs a
  rw [hl] at hloc
  simp only [Ring.step, offset_nat] at hs
  split at hs
  · rename_i hwin
    simp only [Option.some.injEq, Prod.mk.injEq] at hs
    obtain ⟨rfl, rfl⟩ := hs
    have hsp := hloc.2.2
    cases k with
    | push sp f | tryPush sp f =>
      simp only [Enq.sp] at hsp
      subst hsp
      exact h.reserve_mp hx hl hwin.1 rfl fun r' g' hg' ↦ ⟨hg', by simp⟩
    | claim => exact h.reserve_mp hx hl hwin.1 rfl fun r' g' hg' ↦ hg'
  · simp only [Option.some.injEq, Prod.mk.injEq] at hs
    obtain ⟨rfl, rfl⟩ := hs
    cases k <;> exact h.keep hl (.refl _) rfl trivial

/-- The load of the cell's sequence in the dequeue loop. -/
theorem Cells.read_deq {a : A} {sc : Bool} {spin pos : Nat} (h : Cells cap s g)
    (hl : s.loc a = .popSeq sc spin pos) :
    let dif : Int := (s.ring.cells (pos % cap.val)).sequence - ((pos + 1 : Nat) : Int)
    let l' : Loc Nat F := if dif = 0 then .popTake sc spin pos
      else if dif < 0 then .popClosed sc spin pos else .popPos sc spin
    ∃ g', Cells cap ⟨s.ring, Function.update s.loc a l'⟩ g' ∧
      Progress cap s.ring s.ring g g' := by
  intro dif l'
  have hloc := h.locs a
  rw [hl] at hloc
  by_cases h0 : dif = 0
  · have hseq := (h.cellAt pos).seq_eq_succ rfl (by omega)
    have hl' : l' = .popTake sc spin pos := if_pos h0
    rw [hl']
    exact h.keep hl (.refl _) rfl ⟨hloc.1, hloc.2, Or.inr ⟨hseq.1.symm, hseq.2⟩⟩
  · have hl' : l' = if dif < 0 then .popClosed sc spin pos else .popPos sc spin := if_neg h0
    rw [hl']
    split
    · exact h.keep hl (.refl _) rfl hloc
    · exact h.keep hl (.refl _) rfl trivial

/-- **Every access preserves the protocol.** -/
theorem Cells.access {a : A} {spurious : Bool} {r' : Ring Nat A F} {l' : Loc Nat F}
    (h : Cells cap s g) (hx : Exclusive s.loc)
    (hs : s.ring.step cap.val a spurious (s.loc a) = some (r', l')) :
    ∃ g', Cells cap ⟨r', Function.update s.loc a l'⟩ g' ∧ Progress cap s.ring r' g g' := by
  have hr := SameCells.refl s.ring
  have hloc := h.locs a
  cases hl : s.loc a with
  | enqCas k spin pos =>
    rw [hl] at hs
    exact h.cas_enq hx hl hs
  | popTake sc spin pos =>
    rw [hl] at hs hloc
    cases sc with
    | true =>
      simp only [Ring.step, Option.some.injEq, Prod.mk.injEq] at hs
      obtain ⟨rfl, rfl⟩ := hs
      exact h.take hx hl (hloc.2.1 rfl)
    | false =>
      simp only [Ring.step] at hs
      split at hs
      · rename_i hwin
        simp only [Option.some.injEq, Prod.mk.injEq] at hs
        obtain ⟨rfl, rfl⟩ := hs
        exact h.take hx hl hwin.1.symm
      · simp only [Option.some.injEq, Prod.mk.injEq] at hs
        obtain ⟨rfl, rfl⟩ := hs
        exact h.keep hl hr rfl trivial
  | wait q w k =>
    rw [hl] at hs
    obtain ⟨hsame, hholds, hl'⟩ := SameCells.waitStep hs
    refine h.keep hl hsame hholds ?_
    rcases hl' with ⟨w', rfl⟩ | rfl
    · trivial
    · exact LocOk.resume k
  | wake w x =>
    rw [hl] at hs
    obtain ⟨hsame, hholds, hl'⟩ := SameCells.wakeStep hs
    refine h.keep hl hsame hholds ?_
    rcases hl' with ⟨w', rfl⟩ | rfl <;> trivial
  | idle | held pos | ret x =>
    rw [hl] at hs
    simp [Ring.step] at hs
  | enqSeq k spin pos =>
    rw [hl] at hs
    simp only [Ring.step, Ring.cell, slot_nat, dif_nat, Option.some.injEq, Prod.mk.injEq] at hs
    obtain ⟨rfl, rfl⟩ := hs
    exact h.read_enq hx hl
  | popSeq sc spin pos =>
    rw [hl] at hs
    simp only [Ring.step, Ring.cell, slot_nat, offset_nat, dif_nat, Option.some.injEq,
      Prod.mk.injEq] at hs
    obtain ⟨rfl, rfl⟩ := hs
    exact h.read_deq hl
  | enqPos k spin =>
    rw [hl] at hs
    simp only [Ring.step, Option.some.injEq, Prod.mk.injEq] at hs
    obtain ⟨rfl, rfl⟩ := hs
    exact h.keep hl hr rfl ⟨le_rfl, fun _ ↦ rfl⟩
  | popPos sc spin =>
    rw [hl] at hs
    simp only [Ring.step, Option.some.injEq, Prod.mk.injEq] at hs
    obtain ⟨rfl, rfl⟩ := hs
    exact h.keep hl hr rfl ⟨le_rfl, fun _ ↦ rfl⟩
  | popData sc pos =>
    rw [hl] at hs hloc
    simp only [Ring.step, Ring.cell, slot_nat, Option.some.injEq, Prod.mk.injEq] at hs
    obtain ⟨rfl, rfl⟩ := hs
    exact h.keep hl hr rfl hloc
  | pubData sp f pos =>
    rw [hl] at hs
    simp only [Ring.step, Option.some.injEq, Prod.mk.injEq] at hs
    obtain ⟨rfl, rfl⟩ := hs
    exact h.write hx hl
  | pubSeq sp f pos =>
    rw [hl] at hs
    simp only [Ring.step, Option.some.injEq, Prod.mk.injEq] at hs
    obtain ⟨rfl, rfl⟩ := hs
    exact h.publish hx hl
  | pubEnq pos =>
    rw [hl] at hs
    simp only [Ring.step, Option.some.injEq, Prod.mk.injEq] at hs
    obtain ⟨rfl, rfl⟩ := hs
    exact h.advance_enq hx hl
  | popClear sc pos out =>
    rw [hl] at hs
    simp only [Ring.step, Option.some.injEq, Prod.mk.injEq] at hs
    obtain ⟨rfl, rfl⟩ := hs
    exact h.clear hx hl
  | popStore sc pos out =>
    rw [hl] at hs
    simp only [Ring.step, Option.some.injEq, Prod.mk.injEq] at hs
    obtain ⟨rfl, rfl⟩ := hs
    exact h.release hx hl
  | popClosed sc spin pos =>
    rw [hl] at hs hloc
    simp only [Ring.step, Option.some.injEq, Prod.mk.injEq] at hs
    obtain ⟨rfl, rfl⟩ := hs
    split
    · exact h.keep hl hr rfl hloc
    · split <;> exact h.keep hl hr rfl trivial
  | popAgain sc spin pos =>
    rw [hl] at hs
    simp only [Ring.step, Option.some.injEq, Prod.mk.injEq] at hs
    obtain ⟨rfl, rfl⟩ := hs
    split <;> exact h.keep hl hr rfl trivial
  | enqClosed k spin =>
    rw [hl] at hs
    simp only [Ring.step, Option.some.injEq, Prod.mk.injEq] at hs
    obtain ⟨rfl, rfl⟩ := hs
    split <;> exact h.keep hl hr rfl trivial
  | setClosed v =>
    rw [hl] at hs
    simp only [Ring.step, Option.some.injEq, Prod.mk.injEq] at hs
    obtain ⟨rfl, rfl⟩ := hs
    exact h.keep hl ⟨rfl, rfl, rfl, rfl, rfl⟩ rfl trivial
  | depthEnq | depthDeq enq =>
    rw [hl] at hs
    simp only [Ring.step, Option.some.injEq, Prod.mk.injEq] at hs
    obtain ⟨rfl, rfl⟩ := hs
    exact h.keep hl hr rfl trivial

/-- Entering a ring function, taking its result and committing a slot do not touch the ring. -/
theorem Cells.client {a : A} {l' : Loc Nat F} (h : Cells cap s g) (hc : Client (s.loc a) l') :
    ∃ g', Cells cap ⟨s.ring, Function.update s.loc a l'⟩ g' ∧
      Progress cap s.ring s.ring g g' := by
  have hr := SameCells.refl s.ring
  have hloc := h.locs a
  generalize hl : s.loc a = l at hc hloc
  cases hc with
  | enter he => cases he <;> exact h.keep hl hr rfl trivial
  | leave x => exact h.keep hl hr rfl trivial
  | commit f pos => exact h.keep hl hr rfl ⟨hloc, fun hsp ↦ absurd hsp (by decide)⟩

theorem Cells.move {s' : RingSys A F} (h : Cells cap s g) (hx : Exclusive s.loc)
    (hm : Move cap s s') :
    ∃ g', Cells cap s' g' ∧ Progress cap s.ring s'.ring g g' := by
  cases hm with
  | access a spurious hs => exact h.access hx hs
  | client a hc => exact h.client hc

end Step

end Awp
