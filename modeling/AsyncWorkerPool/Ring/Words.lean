import AsyncWorkerPool.Ring.Linear

/-!
# Words — the ring with positions that wrap around

`size_t` positions are words of `w` bits: sums wrap, differences are read as signed numbers, and
`awp_ring_depth` compares the two positions as unsigned ones.  A state with unbounded positions has
an image with words, and the accesses of the two rings correspond as long as a thread compares its
position before half of the words have gone by, and the two positions of `awp_ring_depth` have
wrapped equally often.
-/

open Foundation

namespace Awp

instance {w : Nat} : Position (BitVec w) where
  zero := 0
  offset pos n := pos + BitVec.ofNat w n
  slot cap pos := (pos &&& BitVec.ofNat w (cap - 1)).toNat
  dif a b := (a - b).toInt
  depth cap enq deq := if enq < deq then 0 else min (enq - deq).toNat cap

/-! ## Positions as words -/

section Positions

variable {w : Nat} {cap : Capacity}

theorem word_offset (p n : Nat) :
    Position.offset (BitVec.ofNat w p) n = BitVec.ofNat w (Position.offset p n) :=
  (BitVec.ofNat_add p n).symm

theorem word_slot (hcap : cap.val ≤ 2 ^ w) (p : Nat) :
    Position.slot cap.val (BitVec.ofNat w p) = Position.slot cap.val p := by
  have hdvd : cap.val ∣ 2 ^ w := by
    rw [cap.val_eq] at hcap ⊢
    exact pow_dvd_pow 2 ((Nat.pow_le_pow_iff_right (by decide)).mp hcap)
  have hmask : cap.val - 1 < 2 ^ w := by
    have hpos := cap.pos
    omega
  rw [slot_nat]
  show (BitVec.ofNat w p &&& BitVec.ofNat w (cap.val - 1)).toNat = p % cap.val
  rw [BitVec.toNat_and, BitVec.toNat_ofNat, BitVec.toNat_ofNat, Nat.mod_eq_of_lt hmask,
    land_mask cap.val_eq, Nat.mod_mod_of_dvd p hdvd]

/-- A difference of less than half of the words is read back. -/
theorem word_dif {a b : Nat} (hlo : 2 * b ≤ 2 * a + 2 ^ w) (hhi : 2 * a < 2 * b + 2 ^ w) :
    Position.dif (BitVec.ofNat w a) (BitVec.ofNat w b) = Position.dif a b := by
  rw [dif_nat]
  show (BitVec.ofNat w a - BitVec.ofNat w b).toInt = (a : Int) - b
  have hlo' : (2 * b : Int) ≤ 2 * a + (2 ^ w : Nat) := by exact_mod_cast hlo
  have hhi' : (2 * a : Int) < 2 * b + (2 ^ w : Nat) := by exact_mod_cast hhi
  rw [BitVec.toInt_sub, BitVec.toInt_ofNat', BitVec.toInt_ofNat', Int.bmod_sub_bmod,
    Int.sub_bmod_bmod]
  exact Int.bmod_eq_of_le_mul_two (by omega) (by omega)

/-- Positions that are less than all of the words apart are told apart. -/
theorem word_inj {a b : Nat} (hle : a ≤ b) (hlt : b < a + 2 ^ w) :
    BitVec.ofNat w b = BitVec.ofNat w a ↔ b = a := by
  refine ⟨fun h ↦ ?_, fun h ↦ by rw [h]⟩
  have hmod := congrArg BitVec.toNat h
  rw [BitVec.toNat_ofNat, BitVec.toNat_ofNat] at hmod
  have hzero := Nat.eq_zero_of_dvd_of_lt
    (Nat.dvd_of_mod_eq_zero (Nat.sub_mod_eq_zero_of_mod_eq hmod)) (by omega)
  omega

/-- `awp_ring_depth` on the words, read as numbers. -/
theorem word_depth (cap enq deq : Nat) :
    Position.depth cap (BitVec.ofNat w enq) (BitVec.ofNat w deq) =
      if enq % 2 ^ w < deq % 2 ^ w then 0
      else min (enq % 2 ^ w - deq % 2 ^ w) cap := by
  show (if BitVec.ofNat w enq < BitVec.ofNat w deq then 0
    else min (BitVec.ofNat w enq - BitVec.ofNat w deq).toNat cap) = _
  have hlt : BitVec.ofNat w enq < BitVec.ofNat w deq ↔ enq % 2 ^ w < deq % 2 ^ w := by
    rw [BitVec.lt_def, BitVec.toNat_ofNat, BitVec.toNat_ofNat]
  by_cases h : enq % 2 ^ w < deq % 2 ^ w
  · rw [if_pos (hlt.mpr h), if_pos h]
  · have hle : BitVec.ofNat w deq ≤ BitVec.ofNat w enq := by
      rw [BitVec.le_def, BitVec.toNat_ofNat, BitVec.toNat_ofNat]
      omega
    rw [if_neg fun h' ↦ h (hlt.mp h'), if_neg h, BitVec.toNat_sub_of_le hle, BitVec.toNat_ofNat,
      BitVec.toNat_ofNat]

/-- Positions that have wrapped equally often have the depth of the numbers. -/
theorem word_depth_of_lap {cap enq deq : Nat} (h : enq / 2 ^ w = deq / 2 ^ w) :
    Position.depth cap (BitVec.ofNat w enq) (BitVec.ofNat w deq) = Position.depth cap enq deq := by
  have henq := Nat.div_add_mod enq (2 ^ w)
  have hdeq := Nat.div_add_mod deq (2 ^ w)
  rw [h] at henq
  rw [word_depth, depth_nat]
  have hiff : enq % 2 ^ w < deq % 2 ^ w ↔ enq < deq := by omega
  have hsub : enq % 2 ^ w - deq % 2 ^ w = enq - deq := by omega
  rw [hsub]
  simp only [hiff]

/-- A turn between the two positions makes the ring look empty. -/
theorem word_depth_of_turn {cap enq deq : Nat} (hle : deq ≤ enq) (hroom : enq < deq + 2 ^ w)
    (hne : enq / 2 ^ w ≠ deq / 2 ^ w) :
    Position.depth cap (BitVec.ofNat w enq) (BitVec.ofNat w deq) = 0 := by
  have henq := Nat.div_add_mod enq (2 ^ w)
  have hdeq := Nat.div_add_mod deq (2 ^ w)
  have hlt := Nat.mod_lt enq (Nat.two_pow_pos w)
  have hlt' := Nat.mod_lt deq (Nat.two_pow_pos w)
  have hdiv : enq / 2 ^ w = deq / 2 ^ w + 1 := by
    have h₁ : deq / 2 ^ w ≤ enq / 2 ^ w := Nat.div_le_div_right hle
    have h₂ : enq / 2 ^ w ≤ (deq + 2 ^ w) / 2 ^ w := Nat.div_le_div_right (by omega)
    rw [Nat.add_div_right _ (Nat.two_pow_pos w)] at h₂
    omega
  rw [hdiv, Nat.mul_add, Nat.mul_one] at henq
  rw [word_depth, if_pos (by omega)]

theorem word_depth_iff {cap enq deq : Nat} (hcap : cap < 2 ^ w) (hle : deq ≤ enq)
    (hroom : enq ≤ deq + cap) :
    Position.depth cap (BitVec.ofNat w enq) (BitVec.ofNat w deq) = enq - deq ↔
      enq / 2 ^ w = deq / 2 ^ w := by
  constructor
  · intro h
    by_contra hne
    rw [word_depth_of_turn hle (by omega) hne] at h
    have heq : enq = deq := by omega
    rw [heq] at hne
    exact hne rfl
  · intro h
    rw [word_depth_of_lap h, depth_nat]
    split
    · omega
    · omega

end Positions

/-! ## The image of a state -/

section Image

variable {P Q A F : Type} (f : P → Q)

def Wait.map : Wait P → Wait Q
  | .inc => .inc
  | .lock => .lock
  | .ldClosed => .ldClosed
  | .ldEnq => .ldEnq
  | .ldDeq enq => .ldDeq (f enq)
  | .sleep => .sleep
  | .blocked ticket => .blocked ticket
  | .relock => .relock
  | .unlock => .unlock
  | .dec => .dec

def Ret.map : Ret P F → Ret Q F
  | .rc n => .rc n
  | .flag closed => .flag closed
  | .done => .done
  | .popped pos out => .popped (f pos) out
  | .slotFull => .slotFull
  | .slotAhead => .slotAhead
  | .slotLost => .slotLost
  | .depth d => .depth d

def Loc.map : Loc P F → Loc Q F
  | .idle => .idle
  | .enqClosed k spin => .enqClosed k spin
  | .enqPos k spin => .enqPos k spin
  | .enqSeq k spin pos => .enqSeq k spin (f pos)
  | .enqCas k spin pos => .enqCas k spin (f pos)
  | .held pos => .held (f pos)
  | .pubData sp frame pos => .pubData sp frame (f pos)
  | .pubSeq sp frame pos => .pubSeq sp frame (f pos)
  | .pubEnq pos => .pubEnq (f pos)
  | .popPos sc spin => .popPos sc spin
  | .popSeq sc spin pos => .popSeq sc spin (f pos)
  | .popTake sc spin pos => .popTake sc spin (f pos)
  | .popData sc pos => .popData sc (f pos)
  | .popClear sc pos out => .popClear sc (f pos) out
  | .popStore sc pos out => .popStore sc (f pos) out
  | .popClosed sc spin pos => .popClosed sc spin (f pos)
  | .popAgain sc spin pos => .popAgain sc spin (f pos)
  | .wait q w k => .wait q (w.map f) k
  | .setClosed v => .setClosed v
  | .depthEnq => .depthEnq
  | .depthDeq enq => .depthDeq (f enq)
  | .wake w r => .wake w (r.map f)
  | .ret r => .ret (r.map f)

def Cell.map (c : Cell P F) : Cell Q F := ⟨f c.sequence, c.data⟩

def Ring.map (r : Ring P A F) : Ring Q A F where
  enqueuePos := f r.enqueuePos
  dequeuePos := f r.dequeuePos
  cells i := (r.cells i).map f
  closed := r.closed
  waiters := r.waiters
  waitMu := r.waitMu
  waitCv := r.waitCv
  pushes := r.pushes.map fun x ↦ (f x.1, x.2)
  pops := r.pops.map fun x ↦ (f x.1, x.2)

end Image

/-- A ring with positions of `w` bits, and the location of every thread. -/
structure WordSys (w : Nat) (A F : Type) where
  ring : Ring (BitVec w) A F
  loc : A → Loc (BitVec w) F

/-- The image of a state with unbounded positions. -/
def RingSys.word {A F : Type} (s : RingSys A F) (w : Nat) : WordSys w A F :=
  ⟨s.ring.map (BitVec.ofNat w), fun a ↦ (s.loc a).map (BitVec.ofNat w)⟩

/-- Where a call starts. -/
def Call.wordEntry {F : Type} (w : Nat) (mode : RingMode) : Call F → Loc (BitVec w) F
  | .push f => ringPush mode f
  | .tryPush f => ringTryPush mode f
  | .pop => ringPop mode
  | .claim => ringClaim
  | .close => ringClose
  | .reopen => ringReopen
  | .waitSpace => ringWaitSpace
  | .depth => ringDepth

/-- One step of the system of a ring with words and its users. -/
def wordStep {w : Nat} {A F : Type} [DecidableEq A] (cap : Capacity) (mode : RingMode)
    (s : WordSys w A F) : A × RawAct F → Option (WordSys w A F)
  | (a, .call c) =>
    match s.loc a with
    | .idle => some ⟨s.ring, Function.update s.loc a (c.wordEntry w mode)⟩
    | _ => none
  | (a, .access spurious) =>
    (s.ring.step cap.val a spurious (s.loc a)).map fun x ↦ ⟨x.1, Function.update s.loc a x.2⟩
  | (a, .leave) =>
    match s.loc a with
    | .ret _ => some ⟨s.ring, Function.update s.loc a .idle⟩
    | _ => none
  | (a, .commit f) =>
    match s.loc a with
    | .held pos => some ⟨s.ring, Function.update s.loc a (ringCommit f pos)⟩
    | _ => none

/-- The ring with words that `awp_ring_init` leaves, with nobody inside. -/
def WordSys.start {A F : Type} (w : Nat) (frames : Nat → F) : WordSys w A F :=
  ⟨Ring.init frames, fun _ ↦ .idle⟩

/-- The access comes in time: a sequence number is less than half of the words ahead of the position
that the thread compares it with, and a counter less than all of the words; and the two positions
from which the depth is taken have wrapped equally often, or else the thread waits for space in a
ring that is not full. -/
def Timely {A F : Type} (w : Nat) (cap : Capacity) (r : Ring Nat A F) : Loc Nat F → Prop
  | .enqSeq _ _ pos => (r.cell cap.val pos).sequence < pos + 2 ^ (w - 1)
  | .enqCas _ _ pos => r.enqueuePos < pos + 2 ^ w
  | .popSeq _ _ pos | .popAgain _ _ pos => (r.cell cap.val pos).sequence < pos + 1 + 2 ^ (w - 1)
  | .popTake _ _ pos => r.dequeuePos < pos + 2 ^ w
  | .depthDeq enq | .wait .data (.ldDeq enq) _ => enq / 2 ^ w = r.dequeuePos / 2 ^ w
  | .wait .space (.ldDeq enq) _ => enq / 2 ^ w = r.dequeuePos / 2 ^ w ∨
      (r.dequeuePos ≤ enq ∧ enq < r.dequeuePos + cap.val)
  | _ => True

/-- The side condition on the steps. -/
def inTime {A F : Type} (w : Nat) (cap : Capacity) (s : RingSys A F) : A × RawAct F → Prop
  | (a, .access _) => Timely w cap s.ring (s.loc a)
  | _ => True

/-! ## Corresponding accesses -/

attribute [ext] Ring

section Access

variable {w : Nat} {A F : Type} {cap : Capacity} {s : RingSys A F} {g : Nat → Lap A F}

/-- A sequence number is at most a lap behind `enqueue_pos`. -/
theorem Cells.seq_window (h : Cells cap s g) (p : Nat) :
    s.ring.enqueuePos ≤ (s.ring.cells (p % cap.val)).sequence + cap.val := by
  have hcell := h.cellAt p
  have hlap := hcell.lap
  rw [hcell.seq, Lap.seq]
  split
  · omega
  · omega

/-- The capacity is at most a quarter of the words. -/
theorem word_quarter (hcap : cap.val ≤ 2 ^ (w - 2)) :
    2 ^ w = 4 * 2 ^ (w - 2) ∧ 2 ^ w = 2 * 2 ^ (w - 1) := by
  have htwo := cap.two_le
  have hw : 2 ≤ w := by
    by_contra hlt
    rw [Nat.sub_eq_zero_of_le (by omega)] at hcap
    omega
  obtain ⟨v, rfl⟩ := Nat.exists_eq_add_of_le hw
  have hhalf : 2 + v - 1 = v + 1 := by omega
  rw [Nat.add_sub_cancel_left, hhalf, pow_add, pow_succ]
  omega

/-- The image of a ring and a location. -/
def wordPair (w : Nat) (x : Ring Nat A F × Loc Nat F) : Ring (BitVec w) A F × Loc (BitVec w) F :=
  (x.1.map (BitVec.ofNat w), x.2.map (BitVec.ofNat w))

theorem word_cell (hcap : cap.val ≤ 2 ^ w) (r : Ring Nat A F) (p : Nat) :
    (r.map (BitVec.ofNat w)).cell cap.val (BitVec.ofNat w p) =
      (r.cell cap.val p).map (BitVec.ofNat w) := by
  rw [Ring.cell, word_slot hcap]
  rfl

theorem word_setCell (hcap : cap.val ≤ 2 ^ w) (r : Ring Nat A F) (p : Nat) (c : Cell Nat F) :
    (r.map (BitVec.ofNat w)).setCell cap.val (BitVec.ofNat w p) (c.map (BitVec.ofNat w)) =
      (r.setCell cap.val p c).map (BitVec.ofNat w) := by
  simp only [Ring.setCell, Ring.map, word_slot hcap, Ring.mk.injEq, true_and, and_true]
  funext i
  by_cases hi : i = Position.slot cap.val p
  · rw [hi, Function.update_self, Function.update_self]
  · rw [Function.update_of_ne hi, Function.update_of_ne hi]

section Branches

variable {P Q : Type} (f : P → Q) (k : Enq F) (spin : Nat) (pos : P)

@[simp] theorem Enq.map_reserved : (k.reserved pos).map f = k.reserved (f pos) := by
  cases k <;> rfl

@[simp] theorem Enq.map_ready : (k.ready spin pos).map f = k.ready spin (f pos) := by
  rcases k with ⟨_ | _, _⟩ | ⟨_ | _, _⟩ | _ <;> rfl

@[simp] theorem Enq.map_full : (k.full spin : Loc P F).map f = k.full spin := by
  cases k with
  | push sp frame =>
    simp only [Enq.full]
    split
    · rfl
    · rfl
  | _ => rfl

@[simp] theorem Enq.map_ahead : (k.ahead spin : Loc P F).map f = k.ahead spin := by
  cases k <;> rfl

@[simp] theorem Enq.map_lost : (k.lost spin : Loc P F).map f = k.lost spin := by
  cases k <;> rfl

@[simp] theorem Resume.map_loc (k : Resume F) : (k.loc : Loc P F).map f = k.loc := by
  cases k <;> rfl

end Branches

/-- The decision to wait, from positions taken in time. -/
theorem word_mustWait (hcap : cap.val ≤ 2 ^ w) {r : Ring Nat A F} {q : WaitFor} {k : Resume F}
    {enq : Nat} (ht : Timely w cap r (.wait q (.ldDeq enq) k)) :
    q.mustWait cap.val (Position.depth cap.val (BitVec.ofNat w enq) (BitVec.ofNat w r.dequeuePos)) =
      q.mustWait cap.val (Position.depth cap.val enq r.dequeuePos) := by
  cases q with
  | data => rw [word_depth_of_lap ht]
  | space =>
    by_cases hturn : enq / 2 ^ w = r.dequeuePos / 2 ^ w
    · rw [word_depth_of_lap hturn]
    · obtain ⟨hle, hroom⟩ := ht.resolve_left hturn
      have hpos := cap.pos
      rw [word_depth_of_turn hle (by omega) hturn, depth_nat, if_neg (by omega)]
      simp only [WaitFor.mustWait, decide_eq_decide]
      omega

theorem word_waitStep (hcap : cap.val ≤ 2 ^ w) {a : A} {spurious : Bool} {r : Ring Nat A F}
    {q : WaitFor} {k : Resume F} {x : Wait Nat} (ht : Timely w cap r (.wait q x k)) :
    (r.map (BitVec.ofNat w)).waitStep cap.val a spurious q k (x.map (BitVec.ofNat w)) =
      (r.waitStep cap.val a spurious q k x).map (wordPair w) := by
  cases x with
  | lock | relock =>
    have hmu : (r.map (BitVec.ofNat w)).waitMu = r.waitMu := rfl
    simp only [Wait.map, Ring.waitStep, hmu]
    cases r.waitMu with
    | none => rfl
    | some b => rfl
  | ldClosed =>
    show some (_, if r.closed then _ else _) = some (_, Loc.map _ (if r.closed then _ else _))
    cases r.closed with
    | false => rfl
    | true => rfl
  | ldDeq enq =>
    have hwait : q.mustWait cap.val (Position.depth cap.val (BitVec.ofNat w enq)
        (r.map (BitVec.ofNat w)).dequeuePos) = _ := word_mustWait hcap ht
    simp only [Wait.map, Ring.waitStep, hwait]
    split
    · rfl
    · rfl
  | blocked ticket =>
    simp only [Wait.map, Ring.waitStep]
    by_cases hwake : ticket < r.waitCv ∨ spurious = true
    · rw [if_pos hwake]
      exact if_pos hwake
    · rw [if_neg hwake]
      exact if_neg hwake
  | dec => simp [Wait.map, Ring.waitStep, wordPair, Ring.map]
  | inc | ldEnq | sleep | unlock => rfl

theorem word_wakeStep {a : A} {r : Ring Nat A F} {v : Ret Nat F} {x : Wake} :
    (r.map (BitVec.ofNat w)).wakeStep a (v.map (BitVec.ofNat w)) x =
      (r.wakeStep a v x).map (wordPair w) := by
  cases x with
  | load =>
    show some (_, if 0 < r.waiters then _ else _) = some (_, Loc.map _ (if 0 < r.waiters then _ else _))
    split
    · rfl
    · rfl
  | lock =>
    have hmu : (r.map (BitVec.ofNat w)).waitMu = r.waitMu := rfl
    simp only [Ring.wakeStep, hmu]
    cases r.waitMu with
    | none => rfl
    | some b => rfl
  | broadcast | unlock => rfl

/-- **Corresponding accesses.**  An access in time does to the words what it does to the numbers. -/
theorem Cells.word_step (h : Cells cap s g) (hcap : cap.val ≤ 2 ^ (w - 2)) {a : A} {spurious : Bool}
    (ht : Timely w cap s.ring (s.loc a)) :
    (s.ring.map (BitVec.ofNat w)).step cap.val a spurious ((s.loc a).map (BitVec.ofNat w)) =
      (s.ring.step cap.val a spurious (s.loc a)).map (wordPair w) := by
  have htwo := cap.two_le
  obtain ⟨hquarter, hhalf⟩ := word_quarter hcap
  have hcap' : cap.val ≤ 2 ^ w := by omega
  have hloc := h.locs a
  -- a sequence number, read from the words
  have hseq : ∀ pos, ((s.ring.map (BitVec.ofNat w)).cell cap.val (BitVec.ofNat w pos)).sequence =
      BitVec.ofNat w (s.ring.cells (pos % cap.val)).sequence := fun pos ↦ by
    rw [word_cell hcap', Ring.cell, slot_nat]
    rfl
  have hpop : ∀ pos, pos ≤ s.ring.dequeuePos →
      (s.ring.cell cap.val pos).sequence < pos + 1 + 2 ^ (w - 1) →
      Position.dif ((s.ring.map (BitVec.ofNat w)).cell cap.val (BitVec.ofNat w pos)).sequence
          (Position.offset (BitVec.ofNat w pos) 1) =
        Position.dif (s.ring.cell cap.val pos).sequence (Position.offset pos 1) := by
    intro pos hle hlt
    have hlo := h.seq_window pos
    have hlead : s.ring.dequeuePos ≤ s.ring.enqueuePos + 1 := by
      rcases h.lead with hl | ⟨hl, -⟩
      · omega
      · omega
    rw [Ring.cell, slot_nat] at hlt
    rw [hseq, word_offset, offset_nat, word_dif (by omega) (by omega), Ring.cell, slot_nat]
  cases hl : s.loc a with
  | idle | held _ | ret _ | enqPos _ _ | popPos _ _ | setClosed _ | depthEnq => rfl
  | enqClosed k spin =>
    show some (_, if s.ring.closed then _ else _) =
      some (_, Loc.map _ (if s.ring.closed then _ else _))
    cases s.ring.closed with
    | false => rfl
    | true => rfl
  | enqSeq k spin pos =>
    rw [hl] at ht hloc
    have hlo := h.seq_window pos
    have hlt : (s.ring.cell cap.val pos).sequence < pos + 2 ^ (w - 1) := ht
    have hle : pos ≤ s.ring.enqueuePos := hloc.1
    rw [Ring.cell, slot_nat] at hlt
    have hdif : Position.dif
        ((s.ring.map (BitVec.ofNat w)).cell cap.val (BitVec.ofNat w pos)).sequence
        (BitVec.ofNat w pos) = Position.dif (s.ring.cell cap.val pos).sequence pos := by
      rw [hseq, word_dif (by omega) (by omega), Ring.cell, slot_nat]
    show Ring.step cap.val a spurious _ (.enqSeq k spin (BitVec.ofNat w pos)) = _
    simp only [Ring.step, hdif, Option.map_some, wordPair]
    split
    · rw [Enq.map_ready]
    · split
      · rw [Enq.map_full]
      · rw [Enq.map_ahead]
  | enqCas k spin pos =>
    rw [hl] at ht hloc
    have hiff : (s.ring.map (BitVec.ofNat w)).enqueuePos = BitVec.ofNat w pos ↔
        s.ring.enqueuePos = pos := word_inj hloc.1 ht
    show Ring.step cap.val a spurious _ (.enqCas k spin (BitVec.ofNat w pos)) = _
    simp only [Ring.step, hiff]
    split
    · rw [word_offset, Option.map_some, wordPair, Enq.map_reserved]
      rfl
    · rw [Option.map_some, wordPair, Enq.map_lost]
  | pubData sp frame pos =>
    show Ring.step cap.val a spurious _ (.pubData sp frame (BitVec.ofNat w pos)) = _
    simp only [Ring.step, Option.map_some, wordPair, word_cell hcap']
    rw [← word_setCell hcap']
    rfl
  | pubSeq sp frame pos =>
    show Ring.step cap.val a spurious _ (.pubSeq sp frame (BitVec.ofNat w pos)) = _
    have hcells := congrArg Ring.cells (word_setCell hcap' s.ring pos
      { s.ring.cell cap.val pos with sequence := Position.offset pos 1 })
    simp only [Ring.step, word_cell hcap', word_offset]
    refine congrArg some (Prod.ext (Ring.ext rfl rfl hcells rfl rfl rfl rfl ?_ rfl) ?_)
    · show List.map _ s.ring.pushes ++ [_] = List.map _ (s.ring.pushes ++ [(pos, frame)])
      rw [List.map_append]
      rfl
    · cases sp with
      | false => rfl
      | true => rfl
  | pubEnq pos =>
    show Ring.step cap.val a spurious _ (.pubEnq (BitVec.ofNat w pos)) = _
    simp only [Ring.step, word_offset]
    rfl
  | popSeq sc spin pos =>
    rw [hl] at ht hloc
    show Ring.step cap.val a spurious _ (.popSeq sc spin (BitVec.ofNat w pos)) = _
    simp only [Ring.step, hpop pos hloc.1 ht, Option.map_some, wordPair]
    split
    · rfl
    · split
      · rfl
      · rfl
  | popTake sc spin pos =>
    rw [hl] at ht hloc
    have hiff : (s.ring.map (BitVec.ofNat w)).dequeuePos = BitVec.ofNat w pos ↔
        s.ring.dequeuePos = pos := word_inj hloc.1 ht
    show Ring.step cap.val a spurious _ (.popTake sc spin (BitVec.ofNat w pos)) = _
    cases sc with
    | true =>
      simp only [Ring.step, word_offset]
      rfl
    | false =>
      simp only [Ring.step, hiff]
      split
      · rw [word_offset]
        rfl
      · rfl
  | popData sc pos =>
    show Ring.step cap.val a spurious _ (.popData sc (BitVec.ofNat w pos)) = _
    simp only [Ring.step, word_cell hcap']
    rfl
  | popClear sc pos out =>
    show Ring.step cap.val a spurious _ (.popClear sc (BitVec.ofNat w pos) out) = _
    simp only [Ring.step, Option.map_some, wordPair, word_cell hcap']
    rw [← word_setCell hcap']
    rfl
  | popStore sc pos out =>
    show Ring.step cap.val a spurious _ (.popStore sc (BitVec.ofNat w pos) out) = _
    have hcells := congrArg Ring.cells (word_setCell hcap' s.ring pos
      { s.ring.cell cap.val pos with sequence := Position.offset pos cap.val })
    simp only [Ring.step, word_cell hcap', word_offset]
    refine congrArg some (Prod.ext (Ring.ext rfl rfl hcells rfl rfl rfl rfl rfl ?_) rfl)
    show List.map _ s.ring.pops ++ [_] = List.map _ (s.ring.pops ++ [(pos, out)])
    rw [List.map_append]
    rfl
  | popClosed sc spin pos =>
    show Ring.step cap.val a spurious _ (.popClosed sc spin (BitVec.ofNat w pos)) = _
    simp only [Ring.step, Option.map_some, wordPair]
    cases hclosed : s.ring.closed with
    | true => simp [Ring.map, hclosed, Loc.map]
    | false =>
      simp only [Ring.map, hclosed, Bool.false_eq_true, if_false]
      split
      · rfl
      · rfl
  | popAgain sc spin pos =>
    rw [hl] at ht hloc
    show Ring.step cap.val a spurious _ (.popAgain sc spin (BitVec.ofNat w pos)) = _
    simp only [Ring.step, hpop pos hloc.1 ht, Option.map_some, wordPair]
    split
    · rfl
    · rfl
  | wait q x k =>
    rw [hl] at ht
    exact word_waitStep hcap' ht
  | depthDeq enq =>
    rw [hl] at ht
    have hdepth : Position.depth cap.val (BitVec.ofNat w enq)
        (s.ring.map (BitVec.ofNat w)).dequeuePos = Position.depth cap.val enq s.ring.dequeuePos :=
      word_depth_of_lap ht
    show Ring.step cap.val a spurious _ (.depthDeq (BitVec.ofNat w enq)) = _
    simp only [Ring.step, hdepth]
    rfl
  | wake x v => exact word_wakeStep

theorem RingSys.word_update [DecidableEq A] (r : Ring Nat A F) (a : A) (l : Loc Nat F) :
    RingSys.word ⟨r, Function.update s.loc a l⟩ w =
      ⟨r.map (BitVec.ofNat w), Function.update (s.word w).loc a (l.map (BitVec.ofNat w))⟩ := by
  refine congrArg (WordSys.mk _) (funext fun b ↦ ?_)
  show Loc.map _ (Function.update s.loc a l b) = Function.update (s.word w).loc a (l.map _) b
  by_cases hb : b = a
  · rw [hb, Function.update_self, Function.update_self]
  · rw [Function.update_of_ne hb, Function.update_of_ne hb]
    rfl

theorem Call.map_entry (mode : RingMode) (c : Call F) :
    (c.entry mode).map (BitVec.ofNat w) = c.wordEntry w mode := by
  cases c <;> rfl

/-- A step in time of the ring and its users, and its image. -/
theorem Cells.word_rawStep [DecidableEq A] {mode : RingMode} (h : Cells cap s g)
    (hcap : cap.val ≤ 2 ^ (w - 2)) {x : A × RawAct F} (ht : inTime w cap s x) :
    wordStep cap mode (s.word w) x = (rawStep cap mode s x).map (·.word w) := by
  obtain ⟨a, act⟩ := x
  have hloc : (s.word w).loc a = (s.loc a).map (BitVec.ofNat w) := rfl
  cases act with
  | call c =>
    rw [wordStep, rawStep, hloc]
    cases s.loc a with
    | idle =>
      rw [Option.map_some, RingSys.word_update, Call.map_entry]
      rfl
    | _ => rfl
  | access spurious =>
    have hstep := @Cells.word_step _ _ _ _ _ _ h hcap a spurious ht
    have hring : (s.word w).ring = s.ring.map (BitVec.ofNat w) := rfl
    rw [wordStep, rawStep, hloc, hring, hstep, Option.map_map, Option.map_map]
    congr 1
    funext y
    exact (RingSys.word_update y.1 a y.2).symm
  | leave =>
    rw [wordStep, rawStep, hloc]
    cases s.loc a with
    | ret v =>
      rw [Option.map_some, RingSys.word_update]
      rfl
    | _ => rfl
  | commit f =>
    rw [wordStep, rawStep, hloc]
    cases s.loc a with
    | held pos =>
      rw [Option.map_some, RingSys.word_update]
      rfl
    | _ => rfl

end Access

/-! ## Runs -/

section Runs

variable {w : Nat} {A F : Type} [DecidableEq A] {cap : Capacity} {s : RingSys A F}
  {mode : RingMode} {team : Team A} {frames : Nat → F} {s' : RingSys A F}

/-- The steps that the roles allow and that come in time. -/
def inRoleAndTime (team : Team A) (w : Nat) (cap : Capacity) (s : RingSys A F) (x : A × RawAct F) : Prop :=
  inRole team s x ∧ inTime w cap s x

omit [DecidableEq A] in
theorem RingSys.word_start : (RingSys.start (Ring.init frames) : RingSys A F).word w =
    .start w frames := by
  refine congrArg₂ WordSys.mk (Ring.ext rfl rfl (funext fun i ↦ ?_) rfl rfl rfl rfl rfl rfl) rfl
  show Cell.mk (BitVec.ofNat w (0 + i)) _ = Cell.mk (BitVec.ofNat w 0 + BitVec.ofNat w i) _
  rw [BitVec.ofNat_add]
  rfl

theorem inRoleAndTime.role (hrun : Steps (rawStep cap mode) (inRoleAndTime team w cap) s s') :
    Steps (rawStep cap mode) (inRole team) s s' := hrun.mono fun _ _ h ↦ h.1

/-- A step in time from a state of a run. -/
theorem word_run_step (hroles : Roles mode team) (hcap : cap.val ≤ 2 ^ (w - 2))
    (hrun : Steps (rawStep cap mode) (inRoleAndTime team w cap) (.start (Ring.init frames)) s)
    {x : A × RawAct F} (ht : inTime w cap s x) :
    wordStep cap mode (s.word w) x = (rawStep cap mode s x).map (·.word w) := by
  obtain ⟨g, hcells, -⟩ := (RingInv.run_init hroles (inRoleAndTime.role hrun)).1.laps
  exact hcells.word_rawStep hcap ht

/-- Every run in time is a run of the words. -/
theorem word_run (hroles : Roles mode team) (hcap : cap.val ≤ 2 ^ (w - 2))
    (hrun : Steps (rawStep cap mode) (inRoleAndTime team w cap) (.start (Ring.init frames)) s) :
    Steps (wordStep cap mode) anyStep (.start w frames) (s.word w) := by
  induction hrun with
  | refl =>
    rw [RingSys.word_start]
    exact .refl _
  | tail hr hn ih =>
    obtain ⟨x, hok, hst⟩ := hn
    refine ih.tail (a := x) trivial ?_
    rw [word_run_step hroles hcap hr hok.2, hst]
    rfl

/-- No thread has a position in hand. -/
def RingSys.Settled (s : RingSys A F) : Prop :=
  ∀ a, (s.loc a).owns = none ∧ (s.loc a).pending = none ∧ (s.loc a).carries = none

/-- Distinct numbers that are all the numbers below `n` are `n` in number. -/
theorem length_of_below {l : List Nat} {n : Nat} (hnodup : l.Nodup) (h : ∀ p, p ∈ l ↔ p < n) :
    l.length = n := by
  have hset : l.toFinset = Finset.range n := by
    ext p
    rw [List.mem_toFinset, h, Finset.mem_range]
  rw [← List.toFinset_card_of_nodup hnodup, hset, Finset.card_range]

omit [DecidableEq A] in
/-- The positions are then the numbers of pushes and of pops. -/
theorem Linearized.settled (h : Linearized cap s) (hs : s.Settled) :
    s.ring.pushes.length = s.ring.enqueuePos ∧ s.ring.pops.length = s.ring.dequeuePos := by
  have hpush : s.ring.pushes.length = (s.ring.pushes.map Prod.fst).length := by rw [List.length_map]
  have hpop : s.ring.pops.length = (s.ring.pops.map Prod.fst).length := by rw [List.length_map]
  rw [hpush, hpop]
  refine ⟨length_of_below h.pushedOnce fun p ↦ ?_, length_of_below h.poppedOnce fun p ↦ ?_⟩
  · constructor
    · intro hp
      obtain ⟨⟨p, f⟩, hm, rfl⟩ := List.mem_map.mp hp
      rcases h.filledOnly p f hm with hlt | ⟨-, a, ha⟩
      · exact hlt
      · cases (hs a).2.1.symm.trans ha
    · intro hlt
      rcases h.filled p hlt with ⟨f, hm⟩ | ⟨a, ha⟩
      · exact List.mem_map.mpr ⟨_, hm, rfl⟩
      · cases (hs a).1.symm.trans ha
  · rw [h.taken]
    constructor
    · intro hp
      obtain ⟨⟨p, out⟩, hm, rfl⟩ := List.mem_map.mp hp
      exact .inl ⟨out, hm⟩
    · rintro (⟨out, hm⟩ | ⟨a, ha⟩)
      · exact List.mem_map.mpr ⟨_, hm, rfl⟩
      · cases (hs a).2.2.symm.trans ha

omit [DecidableEq A] in
theorem Linearized.lead (h : Linearized cap s) (hs : s.Settled) :
    s.ring.dequeuePos ≤ s.ring.enqueuePos := by
  by_contra hlt
  rcases (h.taken s.ring.enqueuePos).mp (by omega) with ⟨out, hm⟩ | ⟨a, ha⟩
  · obtain ⟨f, -, hpushed⟩ := h.popped _ out hm
    rcases h.filledOnly _ f hpushed with hlt' | ⟨-, a, ha⟩
    · exact absurd hlt' (lt_irrefl _)
    · cases (hs a).2.1.symm.trans ha
  · cases (hs a).2.2.symm.trans ha

omit [DecidableEq A] in
/-- The depth that the ring reports from its words, exactly while the two positions have wrapped
equally often. -/
theorem Linearized.word_depth (h : Linearized cap s) (hcap : cap.val ≤ 2 ^ (w - 2))
    (hs : s.Settled) :
    (s.word w).ring.depth cap.val = s.ring.pushes.length - s.ring.pops.length ↔
      s.ring.enqueuePos / 2 ^ w = s.ring.dequeuePos / 2 ^ w := by
  have hpos := cap.pos
  obtain ⟨hquarter, hhalf⟩ := word_quarter hcap
  have hroom := h.room
  obtain ⟨hpushes, hpops⟩ := h.settled hs
  rw [hpushes, hpops] at hroom ⊢
  exact word_depth_iff (by omega) (h.lead hs) (by omega)

/-- **Wrap-around is transparent to accesses in time, and to the depth until it comes between the
positions.**  Along every run in which no thread compares its position with a sequence number half of
the words ahead, and no thread takes the depth from positions that have wrapped differently often,
the ring with words of any width goes through the images of the states of the unbounded ring; and
between operations `awp_ring_depth` is the number of frames in the ring if and only if the two positions
have wrapped equally often. -/
theorem wrap_transparent (hroles : Roles mode team) (hcap : cap.val ≤ 2 ^ (w - 2))
    (hrun : Steps (rawStep cap mode) (inRoleAndTime team w cap) (.start (Ring.init frames)) s) :
    Steps (wordStep cap mode) anyStep (.start w frames) (s.word w) ∧
      (∀ x, inTime w cap s x →
        wordStep cap mode (s.word w) x = (rawStep cap mode s x).map (·.word w)) ∧
      (s.Settled → ((s.word w).ring.depth cap.val = s.ring.pushes.length - s.ring.pops.length ↔
        s.ring.enqueuePos / 2 ^ w = s.ring.dequeuePos / 2 ^ w)) := by
  have hlin := (RingInv.run_init hroles (inRoleAndTime.role hrun)).1.linearized
  exact ⟨word_run hroles hcap hrun, fun x ht ↦ word_run_step hroles hcap hrun ht,
    hlin.word_depth hcap⟩

instance {w : Nat} (r : Ring Nat A F) (l : Loc Nat F) : Decidable (Timely w cap r l) := by
  cases l with
  | wait q x k => cases q <;> cases x <;> unfold Timely <;> infer_instance
  | _ => unfold Timely; infer_instance

end Runs

/-! ### A ring of two cells -/

instance (w : Nat) (s : RingSys Bool Nat) (x : Bool × RawAct Nat) :
    Decidable (inRoleAndTime pairTeam w twoCells s x) :=
  @instDecidableAnd _ _ inferInstance <|
    match x with
    | (a, .access _) => inferInstanceAs (Decidable (Timely w twoCells s.ring (s.loc a)))
    | (_, .call _) | (_, .leave) | (_, .commit _) => isTrue trivial

/-- `awp_ring_depth`, called by `false`, up to its result. -/
def depthOnce : List (Bool × RawAct Nat) :=
  [(false, .call .depth), (false, .access false), (false, .access false)]

/-- With words of three bits, eight rounds and one more push take both positions past the wrap, and
the depth is 1 again. -/
theorem wrap_transparent_nineRounds : ∃ s : RingSys Bool Nat,
    Steps (wordStep twoCells .spsc) anyStep (.start 3 id) (s.word 3) ∧
      s.ring.pushes.length = 9 ∧ s.ring.pops.length = 8 ∧ s.loc false = .ret (.depth 1) ∧
      (s.word 3).ring.enqueuePos = 1 ∧ (s.word 3).ring.dequeuePos = 0 ∧
      (s.word 3).ring.depth twoCells.val = 1 := by
  obtain ⟨s, hs, hp⟩ := exec_any (P := fun s : RingSys Bool Nat ↦ decide (
    s.ring.enqueuePos = 9 ∧ s.ring.dequeuePos = 8 ∧ s.loc false = .ret (.depth 1) ∧
      s.loc true = .idle ∧ s.ring.pushes.length = 9 ∧ s.ring.pops.length = 8))
    (show (exec (guarded (rawStep twoCells .spsc) (inRoleAndTime pairTeam 3 twoCells))
      (.start (Ring.init id)) ((List.replicate 8 (pushOnce 7 ++ popOnce)).flatten ++ pushOnce 7 ++
        depthOnce)).any _ = true by decide +kernel)
  obtain ⟨henq, hdeq, hdepth, hidle, hpushes, hpops⟩ := of_decide_eq_true hp
  obtain ⟨hword, -, hiff⟩ :=
    wrap_transparent (pairTeam_roles .spsc) (by decide) (exec_guarded_steps hs)
  have hsettled : s.Settled := by
    rintro (_ | _)
    · rw [hdepth]
      exact ⟨rfl, rfl, rfl⟩
    · rw [hidle]
      exact ⟨rfl, rfl, rfl⟩
  refine ⟨s, hword, hpushes, hpops, hdepth, ?_, ?_, ?_⟩
  · show BitVec.ofNat 3 s.ring.enqueuePos = 1
    rw [henq]
    rfl
  · show BitVec.ofNat 3 s.ring.dequeuePos = 0
    rw [hdeq]
    rfl
  · have hturn : s.ring.enqueuePos / 2 ^ 3 = s.ring.dequeuePos / 2 ^ 3 := by
      rw [henq, hdeq]
      rfl
    rw [(hiff hsettled).mpr hturn, hpushes, hpops]

/-- With words of three bits, seven rounds and one more push: a frame is in the ring, `enqueue_pos`
is 0 again, and the depth is 0. -/
theorem wrapped_depth : ∃ s : RingSys Bool Nat,
    Steps (rawStep twoCells .spsc) (inRoleAndTime pairTeam 3 twoCells) (.start (Ring.init id)) s ∧
      Steps (wordStep twoCells .spsc) anyStep (.start 3 id) (s.word 3) ∧
      (s.loc false = .idle ∧ s.loc true = .idle) ∧
      s.ring.pushes.length - s.ring.pops.length = 1 ∧ s.ring.depth twoCells.val = 1 ∧
      (s.word 3).ring.depth twoCells.val = 0 := by
  obtain ⟨s, hs, hp⟩ := exec_any (P := fun s : RingSys Bool Nat ↦ decide ((s.loc false = .idle ∧
    s.loc true = .idle) ∧ s.ring.pushes.length - s.ring.pops.length = 1 ∧
      s.ring.depth twoCells.val = 1 ∧ (s.word 3).ring.depth twoCells.val = 0))
    (show (exec (guarded (rawStep twoCells .spsc) (inRoleAndTime pairTeam 3 twoCells))
      (.start (Ring.init id)) ((List.replicate 7 (pushOnce 7 ++ popOnce)).flatten ++ pushOnce 7)).any _ =
        true by decide +kernel)
  have hrun := exec_guarded_steps hs
  exact ⟨s, hrun, word_run (pairTeam_roles .spsc) (by decide) hrun, of_decide_eq_true hp⟩

end Awp
