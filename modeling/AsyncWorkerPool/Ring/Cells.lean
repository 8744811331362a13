import AsyncWorkerPool.Ring.System

/-!
# Cells — the sequence protocol of the ring

Every cell is at some lap: the position it serves next or serves now, and how far that position
has come (`free`, `reserved` by a producer, `full`, `taken` by a consumer).  The laps are not
stored anywhere in the program; `Cells` says that the sequence numbers, the two position counters,
the data pointers and the locations of all threads are those of *some* assignment of laps, and
every access preserves it under the discipline of `Exclusive`.
-/

open Foundation

namespace Awp

/-- How far the position of a cell has come. -/
inductive Status (A F : Type) where
  | free
  | reserved (a : A)
  | full (f : F)
  | taken (a : A) (f : F)

/-- The lap of a cell. -/
structure Lap (A F : Type) where
  pos : Nat
  st : Status A F

section Laps

variable {A F : Type}

def Status.published : Status A F → Bool
  | .free | .reserved _ => false
  | .full _ | .taken _ _ => true

def Status.isTaken : Status A F → Bool
  | .taken _ _ => true
  | _ => false

/-- The sequence number a cell of this lap carries. -/
def Lap.seq (g : Lap A F) : Nat := if g.st.published then g.pos + 1 else g.pos

/-- Position `p` of the cell has been published. -/
def Lap.past (g : Lap A F) (p : Nat) : Prop := p < g.pos ∨ (p = g.pos ∧ g.st.published = true)

/-- Position of a single-producer publication that has not advanced `enqueue_pos` yet. -/
def Loc.spPos : Loc Nat F → Option Nat
  | .pubData true _ pos | .pubSeq true _ pos | .pubEnq pos => some pos
  | _ => none

theorem Loc.inEnqSp_of_spPos {l : Loc Nat F} {p : Nat} (h : l.spPos = some p) :
    l.inEnqSp = true := by
  cases l with
  | pubData sp f pos => cases sp <;> simp_all [Loc.spPos, Loc.inEnqSp]
  | pubSeq sp f pos => cases sp <;> simp_all [Loc.spPos, Loc.inEnqSp]
  | pubEnq pos => rfl
  | _ => simp [Loc.spPos] at h

theorem Loc.spPos_of_pending {l : Loc Nat F} {p : Nat} (h : l.pending = some p) :
    l.spPos = some p := by
  cases l with
  | pubEnq pos => exact h
  | _ => simp [Loc.pending] at h

end Laps

section Invariant

variable {A F : Type} (cap : Capacity)

/-- Cell `c` of the ring is at lap `g`. -/
structure CellOk (s : RingSys A F) (c : Nat) (g : Lap A F) : Prop where
  slot : g.pos % cap.val = c
  seq : (s.ring.cells c).sequence = g.seq
  late : g.pos < s.ring.dequeuePos + cap.val
  taken : g.st.isTaken = true ↔ g.pos < s.ring.dequeuePos
  free : g.st = .free → s.ring.enqueuePos ≤ g.pos
  lap : s.ring.enqueuePos ≤ g.pos + cap.val
  busy : g.st ≠ .free → g.pos < s.ring.enqueuePos ∨
    (g.pos = s.ring.enqueuePos ∧ ∃ b, (s.loc b).spPos = some g.pos)
  data : ∀ f, g.st = .full f → (s.ring.cells c).data = some f
  owner : ∀ a, g.st = .reserved a → (s.loc a).owns = some g.pos
  carrier : ∀ a f, g.st = .taken a f → (s.loc a).carries = some g.pos

/-- What the local variables of thread `a` know. -/
def LocOk (r : Ring Nat A F) (g : Nat → Lap A F) (a : A) : Loc Nat F → Prop
  | .enqSeq k _ pos => pos ≤ r.enqueuePos ∧ (k.sp = true → pos = r.enqueuePos)
  | .enqCas k _ pos => pos ≤ r.enqueuePos ∧ pos ≤ (g (pos % cap.val)).pos ∧ k.sp = false
  | .held pos => g (pos % cap.val) = ⟨pos, .reserved a⟩
  | .pubData sp _ pos =>
    g (pos % cap.val) = ⟨pos, .reserved a⟩ ∧ (sp = true → pos = r.enqueuePos)
  | .pubSeq sp f pos =>
    g (pos % cap.val) = ⟨pos, .reserved a⟩ ∧ (sp = true → pos = r.enqueuePos) ∧
      (r.cells (pos % cap.val)).data = some f
  | .pubEnq pos => pos = r.enqueuePos ∧ (g (pos % cap.val)).past pos
  | .popSeq sc _ pos | .popClosed sc _ pos | .popAgain sc _ pos =>
    pos ≤ r.dequeuePos ∧ (sc = true → pos = r.dequeuePos)
  | .popTake sc _ pos =>
    pos ≤ r.dequeuePos ∧ (sc = true → pos = r.dequeuePos) ∧ (g (pos % cap.val)).past pos
  | .popData _ pos =>
    ∃ f, g (pos % cap.val) = ⟨pos, .taken a f⟩ ∧ (r.cells (pos % cap.val)).data = some f
  | .popClear _ pos out | .popStore _ pos out =>
    ∃ f, g (pos % cap.val) = ⟨pos, .taken a f⟩ ∧ out = some f
  | _ => True

/-- The ring is at the laps `g`. -/
structure Cells (s : RingSys A F) (g : Nat → Lap A F) : Prop where
  cell : ∀ c < cap.val, CellOk cap s c (g c)
  locs : ∀ a, LocOk cap s.ring g a (s.loc a)
  lead : s.ring.dequeuePos ≤ s.ring.enqueuePos ∨
    (s.ring.dequeuePos = s.ring.enqueuePos + 1 ∧
      ∃ b, (s.loc b).pending = some s.ring.enqueuePos)

/-- Cell 0 serves position 0 first, cell 1 position 1, and so on. -/
def Lap.init (c : Nat) : Lap A F := ⟨c, .free⟩

theorem Cells.init (frames : Nat → F) :
    Cells cap (⟨Ring.init frames, fun _ ↦ .idle⟩ : RingSys A F) Lap.init where
  cell c hc :=
    { slot := Nat.mod_eq_of_lt hc
      seq := by simp [Ring.init, Lap.init, Lap.seq, Status.published]
      late := by simpa [Ring.init, Lap.init] using hc
      taken := by simp [Ring.init, Lap.init, Status.isTaken]
      free := by simp [Ring.init]
      lap := by simp [Ring.init]
      busy := by simp [Lap.init]
      data := by simp [Lap.init]
      owner := by simp [Lap.init]
      carrier := by simp [Lap.init] }
  locs a := trivial
  lead := Or.inl (by simp [Ring.init])

end Invariant

/-! ## Reading a sequence number -/

section Read

variable {A F : Type} {cap : Capacity} {s : RingSys A F} {g : Nat → Lap A F}

theorem Cells.cellAt (h : Cells cap s g) (p : Nat) :
    CellOk cap s (p % cap.val) (g (p % cap.val)) := h.cell _ (Nat.mod_lt _ cap.pos)

/-- A lap's sequence differs from a position of its cell by the position's progress only. -/
theorem CellOk.seq_eq {c p : Nat} {l : Lap A F} (h : CellOk cap s c l) (hp : p % cap.val = c)
    (hs : (s.ring.cells c).sequence = p) : l.pos = p ∧ l.st.published = false := by
  have hseq := h.seq
  rw [hs] at hseq
  unfold Lap.seq at hseq
  split at hseq
  · -- a published neighbour position would be one off, within a lap of at least two cells
    rename_i hpub
    have hmod : l.pos % cap.val = p % cap.val := h.slot.trans hp.symm
    have hlap := mod_lap hmod (by omega)
    have htwo := cap.two_le
    omega
  · rename_i hpub
    exact ⟨hseq.symm, by simpa using hpub⟩

theorem CellOk.seq_eq_succ {c p : Nat} {l : Lap A F} (h : CellOk cap s c l)
    (hp : p % cap.val = c) (hs : (s.ring.cells c).sequence = p + 1) :
    l.pos = p ∧ l.st.published = true := by
  have hseq := h.seq
  rw [hs] at hseq
  unfold Lap.seq at hseq
  split at hseq
  · rename_i hpub
    exact ⟨by omega, hpub⟩
  · have hmod : p % cap.val = l.pos % cap.val := hp.trans h.slot.symm
    have hlap := mod_lap hmod (by omega)
    have htwo := cap.two_le
    omega

/-- A position before `dequeue_pos` has been taken, and perhaps released. -/
theorem Cells.past_of_lt_dequeue (h : Cells cap s g) {p : Nat} (hp : p < s.ring.dequeuePos) :
    (g (p % cap.val)).past p := by
  have hc := h.cellAt p
  rcases Nat.lt_trichotomy p (g (p % cap.val)).pos with hlt | heq | hgt
  · exact Or.inl hlt
  · have ht := hc.taken.mpr (heq ▸ hp)
    refine Or.inr ⟨heq, ?_⟩
    cases hst : (g (p % cap.val)).st with
    | taken a f => rfl
    | _ => rw [hst] at ht; simp [Status.isTaken] at ht
  · -- the cell would be a lap behind a position that has already been taken
    have hlap := mod_lap hc.slot hgt
    have hle := hc.lap
    rcases h.lead with hl | ⟨hl, b, hb⟩
    · omega
    · have hpe : p = s.ring.enqueuePos := by omega
      have hloc := h.locs b
      cases hb' : s.loc b with
      | pubEnq pos =>
        rw [hb'] at hb hloc
        simp only [Loc.pending, Option.some.injEq] at hb
        rw [hb, ← hpe] at hloc
        exact hloc.2
      | _ => rw [hb'] at hb; simp [Loc.pending] at hb

/-- The next position to take is published exactly when its cell is full. -/
theorem Cells.full_of_past (h : Cells cap s g) {p : Nat} (hp : (g (p % cap.val)).past p)
    (hd : s.ring.dequeuePos ≤ p) : ∃ f, g (p % cap.val) = ⟨p, .full f⟩ := by
  have hc := h.cellAt p
  rcases hg : g (p % cap.val) with ⟨pos, st⟩
  rw [hg] at hp hc
  have hpos : p = pos := by
    rcases hp with hlt | ⟨heq, -⟩
    · have hl : pos < s.ring.dequeuePos + cap.val := hc.late
      have hlap : p + cap.val ≤ pos := mod_lap hc.slot.symm hlt
      omega
    · exact heq
  subst hpos
  rcases hp with hlt | ⟨-, hpub⟩
  · exact absurd hlt (lt_irrefl p)
  · cases st with
    | full f => exact ⟨f, rfl⟩
    | taken a f =>
      have ht := hc.taken.mp rfl
      simp only at ht
      omega
    | free => simp [Status.published] at hpub
    | reserved a => simp [Status.published] at hpub

end Read

/-! ## Preservation -/

section Preservation

variable {A F : Type} [DecidableEq A] {cap : Capacity} {s : RingSys A F} {g : Nat → Lap A F}

/-- The shape of every access: thread `a` changes at most cell `c₀`, advances a counter at most
past a position of that cell, and keeps or gives up what it holds there. -/
structure Touch (cap : Capacity) (s : RingSys A F) (a : A) (c₀ : Nat) (r' : Ring Nat A F)
    (l' : Loc Nat F) : Prop where
  cells : ∀ c, c ≠ c₀ → r'.cells c = s.ring.cells c
  enq : r'.enqueuePos = s.ring.enqueuePos ∨ (r'.enqueuePos = s.ring.enqueuePos + 1 ∧
    s.ring.enqueuePos % cap.val = c₀ ∧ (s.loc a).inEnq = true)
  deq : r'.dequeuePos = s.ring.dequeuePos ∨ (r'.dequeuePos = s.ring.dequeuePos + 1 ∧
    s.ring.dequeuePos % cap.val = c₀ ∧ (s.loc a).inPop = true)
  spPos : ∀ p, (s.loc a).spPos = some p →
    l'.spPos = some p ∨ r'.enqueuePos = s.ring.enqueuePos + 1
  owns : ∀ p, (s.loc a).owns = some p → l'.owns = some p ∨ p % cap.val = c₀
  carries : ∀ p, (s.loc a).carries = some p → l'.carries = some p ∨ p % cap.val = c₀

/-- The lap of the touched cell only moves on. -/
structure Advance (l l' : Lap A F) : Prop where
  pos : l.pos ≤ l'.pos
  past : ∀ p, l.past p → l'.past p

/-- The touched cell is not held by a thread other than `a`. -/
def NotOthers (a : A) (l : Lap A F) : Prop :=
  ∀ b, b ≠ a → l.st ≠ .reserved b ∧ ∀ f, l.st ≠ .taken b f

omit [DecidableEq A] in
theorem Advance.self {l : Lap A F} : Advance l l := ⟨le_rfl, fun _ h ↦ h⟩

/-- A cell that was not touched stays at its lap. -/
theorem CellOk.frame {a : A} {c₀ c : Nat} {r' : Ring Nat A F} {l' : Loc Nat F} {l : Lap A F}
    (h : CellOk cap s c l) (ht : Touch cap s a c₀ r' l') (hc : c ≠ c₀) :
    CellOk cap ⟨r', Function.update s.loc a l'⟩ c l := by
  -- neither counter has passed a position of this cell
  have hne : ∀ p, p % cap.val = c₀ → l.pos ≠ p := by
    rintro p hp rfl
    exact hc (h.slot.symm.trans hp)
  have hlap : r'.enqueuePos ≤ l.pos + cap.val := by
    have hle := h.lap
    rcases ht.enq with he | ⟨he, hslot, -⟩
    · omega
    · have hd : l.pos + cap.val ≠ s.ring.enqueuePos := by
        intro heq
        rw [← heq, Nat.add_mod_right] at hslot
        exact hc (h.slot.symm.trans hslot)
      omega
  refine
    { slot := h.slot
      seq := by simpa only [ht.cells c hc] using h.seq
      late := ?_, taken := ?_, free := ?_, lap := hlap, busy := ?_
      data := by simpa only [ht.cells c hc] using h.data
      owner := ?_, carrier := ?_ }
  · have hl := h.late
    rcases ht.deq with he | ⟨he, -⟩ <;> simp only <;> omega
  · rw [h.taken]
    rcases ht.deq with he | ⟨he, hslot, -⟩
    · simp only [he]
    · have hd := hne _ hslot
      simp only
      omega
  · intro hf
    have hle := h.free hf
    rcases ht.enq with he | ⟨he, hslot, -⟩
    · simp only
      omega
    · have hd := hne _ hslot
      simp only
      omega
  · intro hf
    rcases h.busy hf with hlt | ⟨heq, b, hb⟩
    · left
      rcases ht.enq with he | ⟨he, -⟩ <;> simp only <;> omega
    · rcases ht.enq with he | ⟨he, hslot, -⟩
      · refine Or.inr ⟨by simp only; omega, b, ?_⟩
        by_cases hba : b = a
        · subst hba
          rcases ht.spPos _ hb with hs | hs
          · simpa only [Function.update_self] using hs
          · omega
        · simpa only [Function.update_of_ne hba] using hb
      · exact absurd heq (hne _ hslot)
  · intro b hb
    have ho := h.owner b hb
    by_cases hba : b = a
    · subst hba
      rcases ht.owns _ ho with hs | hs
      · simpa only [Function.update_self] using hs
      · exact absurd (h.slot.symm.trans hs) hc
    · simpa only [Function.update_of_ne hba] using ho
  · intro b f hb
    have ho := h.carrier b f hb
    by_cases hba : b = a
    · subst hba
      rcases ht.carries _ ho with hs | hs
      · simpa only [Function.update_self] using hs
      · exact absurd (h.slot.symm.trans hs) hc
    · simpa only [Function.update_of_ne hba] using ho

omit [DecidableEq A] in
/-- What another thread knows survives the access. -/
theorem LocOk.frame {a b : A} {c₀ : Nat} {r' : Ring Nat A F} {l' : Loc Nat F} {l : Lap A F}
    (hx : Exclusive s.loc) (hb : b ≠ a) (ht : Touch cap s a c₀ r' l')
    (hadv : Advance (g c₀) l)
    (hothers : (l = g c₀ ∧ r'.cells c₀ = s.ring.cells c₀) ∨ NotOthers a (g c₀))
    (h : LocOk cap s.ring g b (s.loc b)) :
    LocOk cap r' (Function.update g c₀ l) b (s.loc b) := by
  have henq : (s.loc b).inEnqSp = true → r'.enqueuePos = s.ring.enqueuePos := by
    intro hsp
    rcases ht.enq with he | ⟨-, -, hin⟩
    · exact he
    · rw [hx.enq b a hb hsp] at hin
      exact absurd hin (by decide)
  have hdeq : (s.loc b).inPopSc = true → r'.dequeuePos = s.ring.dequeuePos := by
    intro hsc
    rcases ht.deq with he | ⟨-, -, hin⟩
    · exact he
    · rw [hx.pop b a hb hsc] at hin
      exact absurd hin (by decide)
  have henqle : s.ring.enqueuePos ≤ r'.enqueuePos := by rcases ht.enq with he | ⟨he, -⟩ <;> omega
  have hdeqle : s.ring.dequeuePos ≤ r'.dequeuePos := by rcases ht.deq with he | ⟨he, -⟩ <;> omega
  have hpos : ∀ c, (g c).pos ≤ (Function.update g c₀ l c).pos := by
    intro c
    by_cases hc : c = c₀
    · rw [hc, Function.update_self]; exact hadv.pos
    · rw [Function.update_of_ne hc]
  have hpast : ∀ c p, (g c).past p → (Function.update g c₀ l c).past p := by
    intro c p hp
    by_cases hc : c = c₀
    · rw [hc, Function.update_self]; exact hadv.past p (hc ▸ hp)
    · rw [Function.update_of_ne hc]; exact hp
  -- a cell that `b` holds is either another one or was left as it was
  have hkeep : ∀ c, ((g c).st = .reserved b ∨ ∃ f, (g c).st = .taken b f) →
      Function.update g c₀ l c = g c ∧ r'.cells c = s.ring.cells c := by
    intro c hst
    by_cases hc : c = c₀
    · subst hc
      rcases hothers with ⟨hl, hcell⟩ | hno
      · exact ⟨by rw [Function.update_self, hl], hcell⟩
      · rcases hst with hst | ⟨f, hst⟩
        · exact absurd hst (hno b hb).1
        · exact absurd hst ((hno b hb).2 f)
    · exact ⟨Function.update_of_ne hc l g, ht.cells c hc⟩
  cases hl : s.loc b with
  | enqSeq k spin pos =>
    rw [hl] at h henq
    exact ⟨h.1.trans henqle, fun hk ↦ (h.2 hk).trans (henq hk).symm⟩
  | enqCas k spin pos =>
    rw [hl] at h
    exact ⟨h.1.trans henqle, h.2.1.trans (hpos _), h.2.2⟩
  | held pos =>
    rw [hl] at h
    have hg : g (pos % cap.val) = _ := h
    exact (hkeep _ (Or.inl (by rw [hg]))).1.trans hg
  | pubData sp f pos =>
    rw [hl] at h henq
    have hk := hkeep _ (Or.inl (by rw [h.1]))
    exact ⟨hk.1.trans h.1, fun hsp ↦ (h.2 hsp).trans (henq hsp).symm⟩
  | pubSeq sp f pos =>
    rw [hl] at h henq
    have hk := hkeep _ (Or.inl (by rw [h.1]))
    exact ⟨hk.1.trans h.1, fun hsp ↦ (h.2.1 hsp).trans (henq hsp).symm, by rw [hk.2, h.2.2]⟩
  | pubEnq pos =>
    rw [hl] at h henq
    exact ⟨h.1.trans (henq (by simp [Loc.inEnqSp])).symm, hpast _ _ h.2⟩
  | popSeq sc spin pos | popClosed sc spin pos | popAgain sc spin pos =>
    rw [hl] at h hdeq
    exact ⟨h.1.trans hdeqle, fun hk ↦ (h.2 hk).trans (hdeq hk).symm⟩
  | popTake sc spin pos =>
    rw [hl] at h hdeq
    exact ⟨h.1.trans hdeqle, fun hk ↦ (h.2.1 hk).trans (hdeq hk).symm, hpast _ _ h.2.2⟩
  | popData sc pos =>
    rw [hl] at h
    obtain ⟨f, hg, hd⟩ := h
    have hk := hkeep _ (Or.inr ⟨f, by rw [hg]⟩)
    exact ⟨f, hk.1.trans hg, by rw [hk.2, hd]⟩
  | popClear sc pos out | popStore sc pos out =>
    rw [hl] at h
    obtain ⟨f, hg, ho⟩ := h
    exact ⟨f, (hkeep _ (Or.inr ⟨f, by rw [hg]⟩)).1.trans hg, ho⟩
  | _ => trivial

/-- **Preservation, assembled.**  It is enough to look at the touched cell, at the thread that
moved and at the order of the two counters. -/
theorem Cells.advance {a : A} {c₀ : Nat} {r' : Ring Nat A F} {l' : Loc Nat F} {l : Lap A F}
    (h : Cells cap s g) (hx : Exclusive s.loc) (ht : Touch cap s a c₀ r' l')
    (hadv : Advance (g c₀) l)
    (hothers : (l = g c₀ ∧ r'.cells c₀ = s.ring.cells c₀) ∨ NotOthers a (g c₀))
    (hcell : c₀ < cap.val → CellOk cap ⟨r', Function.update s.loc a l'⟩ c₀ l)
    (hloc : LocOk cap r' (Function.update g c₀ l) a l')
    (hlead : r'.dequeuePos ≤ r'.enqueuePos ∨ (r'.dequeuePos = r'.enqueuePos + 1 ∧
      ∃ b, ((Function.update s.loc a l') b).pending = some r'.enqueuePos)) :
    Cells cap ⟨r', Function.update s.loc a l'⟩ (Function.update g c₀ l) where
  cell c hc := by
    by_cases hcc : c = c₀
    · subst hcc
      rw [Function.update_self]
      exact hcell hc
    · rw [Function.update_of_ne hcc]
      exact (h.cell c hc).frame ht hcc
  locs b := by
    by_cases hb : b = a
    · subst hb
      simpa only [Function.update_self] using hloc
    · simpa only [Function.update_of_ne hb] using LocOk.frame hx hb ht hadv hothers (h.locs b)
  lead := hlead

end Preservation

end Awp
