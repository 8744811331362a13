import AsyncWorkerPool.Foundation.Runs
import AsyncWorkerPool.Ring.Protocol

/-!
# Raw — a ring driven directly by its users

`rawStep` is the executable system of a ring and any number of threads that call its functions:
the labels are a call, one access of the call under way, taking its result, and committing a slot
obtained with a claim.  `Roles` is what a ring mode asks of its users; in every run that respects
it the single-producer and single-consumer code is exclusive, whatever the schedule.
-/

open Foundation

namespace Awp

/-- `awp_ring_init`: the capacity it rounds to and the ring it leaves (allocation succeeding). -/
def ringInit {A F : Type} (capacity : UInt32) (frames : Nat → F) :
    Option (Capacity × Ring Nat A F) :=
  if capacity < 1 then none
  else if h : roundUpPow2 capacity = 0 then none
  else some (capacityOf capacity h, Ring.init frames)

theorem ringInit_eq {A F : Type} {v : UInt32} {frames : Nat → F} {cap : Capacity}
    {r : Ring Nat A F} (h : ringInit v frames = some (cap, r)) : r = Ring.init frames := by
  simp only [ringInit] at h
  split at h
  · cases h
  · split at h
    · cases h
    · simp only [Option.some.injEq, Prod.mk.injEq] at h
      exact h.2.symm

/-- The calls a user makes; `push` and `try_push` with a frame that is not `NULL`. -/
inductive Call (F : Type) where
  | push (f : F)
  | tryPush (f : F)
  | pop
  | claim
  | close
  | reopen
  | waitSpace
  | depth
  deriving DecidableEq

/-- Where a call starts. -/
def Call.entry {F : Type} (mode : RingMode) : Call F → Loc Nat F
  | .push f => ringPush mode f
  | .tryPush f => ringTryPush mode f
  | .pop => ringPop mode
  | .claim => ringClaim
  | .close => ringClose
  | .reopen => ringReopen
  | .waitSpace => ringWaitSpace
  | .depth => ringDepth

/-- What a user's thread does next. -/
inductive RawAct (F : Type) where
  | call (c : Call F)
  | access (spurious : Bool)
  | leave
  | commit (f : F)
  deriving DecidableEq

section Raw

variable {A F : Type} [DecidableEq A]

/-- One step of the system of a ring and its users. -/
def rawStep (cap : Capacity) (mode : RingMode) (s : RingSys A F) :
    A × RawAct F → Option (RingSys A F)
  | (a, .call c) =>
    match s.loc a with
    | .idle => some ⟨s.ring, Function.update s.loc a (c.entry mode)⟩
    | _ => none
  | (a, .access spurious) =>
    (s.ring.step cap.val a spurious (s.loc a)).map fun x ↦ ⟨x.1, Function.update s.loc a x.2⟩
  | (a, .leave) =>
    match s.loc a with
    | .ret _ => some ⟨s.ring, Function.update s.loc a .idle⟩
    | _ => none
  | (a, .commit f) =>
    match s.loc a with
    | .held pos => some ⟨s.ring, Function.update s.loc a (ringCommit f pos)⟩
    | _ => none

/-- Nobody is inside a ring function yet. -/
def RingSys.start (r : Ring Nat A F) : RingSys A F := ⟨r, fun _ ↦ .idle⟩

omit [DecidableEq A] in
theorem Call.entry_ok (mode : RingMode) (c : Call F) : Entry F (c.entry mode) := by
  cases c <;> constructor

/-- Everything a step of the system can do. -/
theorem rawStep_cases {cap : Capacity} {mode : RingMode} {s s' : RingSys A F} {a : A}
    {x : RawAct F} (h : rawStep cap mode s (a, x) = some s') :
    (∃ c, x = .call c ∧ s.loc a = .idle ∧
      s' = ⟨s.ring, Function.update s.loc a (c.entry mode)⟩) ∨
    (∃ spurious r' l', x = .access spurious ∧
      s.ring.step cap.val a spurious (s.loc a) = some (r', l') ∧
      s' = ⟨r', Function.update s.loc a l'⟩) ∨
    (∃ v, x = .leave ∧ s.loc a = .ret v ∧ s' = ⟨s.ring, Function.update s.loc a .idle⟩) ∨
    (∃ f pos, x = .commit f ∧ s.loc a = .held pos ∧
      s' = ⟨s.ring, Function.update s.loc a (ringCommit f pos)⟩) := by
  cases x with
  | call c =>
    simp only [rawStep] at h
    split at h
    · rename_i hl
      simp only [Option.some.injEq] at h
      exact Or.inl ⟨c, rfl, hl, h.symm⟩
    · cases h
  | access spurious =>
    simp only [rawStep, Option.map_eq_some_iff] at h
    obtain ⟨⟨r', l'⟩, hs, rfl⟩ := h
    exact Or.inr (Or.inl ⟨spurious, r', l', rfl, hs, rfl⟩)
  | leave =>
    simp only [rawStep] at h
    split at h
    · rename_i v hl
      simp only [Option.some.injEq] at h
      exact Or.inr (Or.inr (Or.inl ⟨v, rfl, hl, h.symm⟩))
    · cases h
  | commit f =>
    simp only [rawStep] at h
    split at h
    · rename_i pos hl
      simp only [Option.some.injEq] at h
      exact Or.inr (Or.inr (Or.inr ⟨f, pos, rfl, hl, h.symm⟩))
    · cases h

/-- The raw system is a client of the ring. -/
theorem rawStep_move {cap : Capacity} {mode : RingMode} {s s' : RingSys A F} {l : A × RawAct F}
    (h : rawStep cap mode s l = some s') : Move cap s s' := by
  obtain ⟨a, x⟩ := l
  rcases rawStep_cases h with ⟨c, -, hl, rfl⟩ | ⟨sp, r', l', -, hs, rfl⟩ | ⟨v, -, hl, rfl⟩ |
    ⟨f, pos, -, hl, rfl⟩
  · exact .client a (hl ▸ .enter (c.entry_ok mode))
  · exact .access a sp hs
  · exact .client a (hl ▸ .leave v)
  · exact .client a (hl ▸ .commit f pos)

end Raw

/-! ## Kinds: which copy of the code a thread runs -/

section Kinds

variable {P A F : Type} [Position P] [DecidableEq P]

/-- The copy of the enqueue code a thread runs or will resume: single-producer or not. -/
@[simp] def Loc.enqKind : Loc P F → Option Bool
  | .enqClosed k _ | .enqPos k _ | .enqSeq k _ _ | .enqCas k _ _ | .wait _ _ (.enq k) => some k.sp
  | .held _ => some false
  | .pubData sp _ _ | .pubSeq sp _ _ => some sp
  | .pubEnq _ => some true
  | _ => none

/-- The copy of the dequeue code a thread runs or will resume. -/
@[simp] def Loc.popKind : Loc P F → Option Bool
  | .popPos sc _ | .popSeq sc _ _ | .popTake sc _ _ | .popData sc _ | .popClear sc _ _
  | .popStore sc _ _ | .popClosed sc _ _ | .popAgain sc _ _ | .wait _ _ (.pop sc) => some sc
  | _ => none

omit [Position P] [DecidableEq P] in
theorem Enq.kinds (k : Enq F) (spin : Nat) (pos : P) :
    ((k.ready spin pos).enqKind = some k.sp ∧ (k.ready spin pos).popKind = none) ∧
    ((k.full spin : Loc P F).enqKind = none ∨ (k.full spin : Loc P F).enqKind = some k.sp) ∧
    ((k.ahead spin : Loc P F).enqKind = none ∨ (k.ahead spin : Loc P F).enqKind = some k.sp) ∧
    ((k.lost spin : Loc P F).enqKind = none ∨ (k.lost spin : Loc P F).enqKind = some k.sp) ∧
    (k.full spin : Loc P F).popKind = none ∧ (k.ahead spin : Loc P F).popKind = none ∧
    (k.lost spin : Loc P F).popKind = none := by
  cases k with
  | push sp f =>
    cases sp <;> by_cases hs : spin < spinBudget <;>
      simp [Enq.ready, Enq.full, Enq.ahead, Enq.lost, Loc.enqKind, Loc.popKind, Enq.sp, hs]
  | tryPush sp f =>
    cases sp <;> simp [Enq.ready, Enq.full, Enq.ahead, Enq.lost, Loc.enqKind, Loc.popKind, Enq.sp]
  | claim => simp [Enq.ready, Enq.full, Enq.ahead, Enq.lost, Loc.enqKind, Loc.popKind, Enq.sp]

omit [Position P] [DecidableEq P] in
theorem Enq.reserved_kinds (k : Enq F) (pos : P) :
    (k.reserved pos).enqKind = some k.sp ∧ (k.reserved pos).popKind = none := by
  cases k <;> exact ⟨rfl, rfl⟩

omit [Position P] [DecidableEq P] in
theorem Ring.wakeStep_kinds {a : A} {x : Ret P F} {w : Wake} {r r' : Ring P A F} {l' : Loc P F}
    (h : r.wakeStep a x w = some (r', l')) : l'.enqKind = none ∧ l'.popKind = none := by
  cases w <;> simp only [Ring.wakeStep] at h <;> grind [Loc.enqKind, Loc.popKind]

omit [DecidableEq P] in
theorem Ring.waitStep_kinds {cap : Nat} {a : A} {spurious : Bool} {q : WaitFor} {k : Resume F}
    {w : Wait P} {r r' : Ring P A F} {l' : Loc P F}
    (h : r.waitStep cap a spurious q k w = some (r', l')) :
    l'.enqKind = (Loc.wait q w k).enqKind ∧ l'.popKind = (Loc.wait q w k).popKind := by
  cases k <;> cases w <;> simp only [Ring.waitStep] at h <;>
    grind [Loc.enqKind, Loc.popKind, Resume.loc]

/-- A thread runs one copy of the code until it has left it. -/
theorem Ring.step_kinds {cap : Nat} {a : A} {spurious : Bool} {r r' : Ring P A F} {l l' : Loc P F}
    (h : r.step cap a spurious l = some (r', l')) :
    (l'.enqKind = none ∨ l'.enqKind = l.enqKind) ∧ (l'.popKind = none ∨ l'.popKind = l.popKind) := by
  cases l with
  | wake w x =>
    obtain ⟨henq, hpop⟩ := Ring.wakeStep_kinds h
    exact ⟨Or.inl henq, Or.inl hpop⟩
  | wait q w k =>
    obtain ⟨henq, hpop⟩ := Ring.waitStep_kinds h
    exact ⟨Or.inr henq, Or.inr hpop⟩
  | enqSeq k spin pos =>
    have hk := k.kinds spin pos
    simp only [Ring.step] at h
    grind [Loc.enqKind, Loc.popKind]
  | enqCas k spin pos =>
    have hk := k.kinds spin pos
    have hres := k.reserved_kinds pos
    simp only [Ring.step] at h
    grind [Loc.enqKind, Loc.popKind]
  | popTake sc spin pos =>
    cases sc <;> simp only [Ring.step] at h <;> grind [Loc.enqKind, Loc.popKind]
  | _ =>
    simp only [Ring.step] at h
    grind [Loc.enqKind, Loc.popKind]

omit [Position P] [DecidableEq P] in
theorem Loc.enqKind_of_inEnq {l : Loc Nat F} (h : l.inEnq = true) : l.enqKind.isSome = true := by
  cases l <;> simp_all [Loc.inEnq, Loc.enqKind]

omit [Position P] [DecidableEq P] in
theorem Loc.enqKind_of_inEnqSp {l : Loc Nat F} (h : l.inEnqSp = true) : l.enqKind = some true := by
  cases l <;> simp_all [Loc.inEnqSp, Loc.enqKind]

omit [Position P] [DecidableEq P] in
theorem Loc.popKind_of_inPop {l : Loc Nat F} (h : l.inPop = true) : l.popKind.isSome = true := by
  cases l <;> simp_all [Loc.inPop, Loc.popKind]

omit [Position P] [DecidableEq P] in
theorem Loc.popKind_of_inPopSc {l : Loc Nat F} (h : l.inPopSc = true) : l.popKind = some true := by
  cases l <;> simp_all [Loc.inPopSc, Loc.popKind]

end Kinds

/-! ## The discipline of a mode -/

section Roles

variable {A F : Type}

/-- Which threads push, which pop, and which reserve slots the way `pool.c` does. -/
structure Team (A : Type) where
  producer : A → Prop
  consumer : A → Prop
  claimer : A → Prop

/-- What `awp_ring_mode_t` asks of the users: the table in `awp.h`.  The reservation of `pool.c`
is multi-producer code in every mode, so it only has to stay away from a single producer. -/
structure Roles (mode : RingMode) (team : Team A) : Prop where
  oneProducer : mode.singleProducer = true →
    ∀ a b, team.producer a → team.producer b ∨ team.claimer b → a = b
  oneConsumer : mode.singleConsumer = true →
    ∀ a b, team.consumer a → team.consumer b → a = b

/-- The role a call needs. -/
def Team.allows (team : Team A) (a : A) : Call F → Prop
  | .push _ | .tryPush _ => team.producer a
  | .pop => team.consumer a
  | .claim => team.claimer a
  | .close | .reopen | .waitSpace | .depth => True

/-- Calls are made by threads of the right role. -/
def inRole (team : Team A) (_ : RingSys A F) : A × RawAct F → Prop
  | (a, .call c) => team.allows a c
  | _ => True

/-- A thread runs the copies of the code that its role and the mode give it. -/
structure Roled (mode : RingMode) (team : Team A) (loc : A → Loc Nat F) : Prop where
  enq : ∀ a sp, (loc a).enqKind = some sp → (team.producer a ∨ team.claimer a) ∧
    (sp = true → team.producer a ∧ mode.singleProducer = true)
  pop : ∀ a sc, (loc a).popKind = some sc → team.consumer a ∧
    (sc = true → mode.singleConsumer = true)

variable {mode : RingMode} {team : Team A}

theorem Roled.start : Roled mode team (fun _ ↦ (.idle : Loc Nat F)) :=
  ⟨fun _ _ h ↦ by simp [Loc.enqKind] at h, fun _ _ h ↦ by simp [Loc.popKind] at h⟩

theorem Roled.exclusive {loc : A → Loc Nat F} (h : Roled mode team loc)
    (hr : Roles mode team) : Exclusive loc where
  enq a b hab ha := by
    by_contra hb
    obtain ⟨hpa, hmode⟩ := (h.enq a true (Loc.enqKind_of_inEnqSp ha)).2 rfl
    obtain ⟨sp, hsp⟩ := Option.isSome_iff_exists.mp
      (Loc.enqKind_of_inEnq (by simpa using hb))
    exact hab (hr.oneProducer hmode a b hpa (h.enq b sp hsp).1)
  pop a b hab ha := by
    by_contra hb
    obtain ⟨hpa, hmode⟩ := h.pop a true (Loc.popKind_of_inPopSc ha)
    obtain ⟨sc, hsc⟩ := Option.isSome_iff_exists.mp
      (Loc.popKind_of_inPop (by simpa using hb))
    exact hab (hr.oneConsumer (hmode rfl) a b hpa (h.pop b sc hsc).1)

variable [DecidableEq A]

/-- A thread that moves to a location with no new kind stays in its role. -/
theorem Roled.update {loc : A → Loc Nat F} (h : Roled mode team loc) {a : A}
    {l' : Loc Nat F}
    (henq : ∀ sp, l'.enqKind = some sp → (team.producer a ∨ team.claimer a) ∧
      (sp = true → team.producer a ∧ mode.singleProducer = true))
    (hpop : ∀ sc, l'.popKind = some sc → team.consumer a ∧
      (sc = true → mode.singleConsumer = true)) :
    Roled mode team (Function.update loc a l') where
  enq b sp hb := by
    by_cases hba : b = a
    · subst hba
      exact henq sp (by simpa using hb)
    · exact h.enq b sp (by simpa [hba] using hb)
  pop b sc hb := by
    by_cases hba : b = a
    · subst hba
      exact hpop sc (by simpa using hb)
    · exact h.pop b sc (by simpa [hba] using hb)

theorem Roled.step {cap : Capacity} {s s' : RingSys A F} {l : A × RawAct F}
    (h : Roled mode team s.loc) (hok : inRole team s l)
    (hs : rawStep cap mode s l = some s') : Roled mode team s'.loc := by
  obtain ⟨a, x⟩ := l
  rcases rawStep_cases hs with ⟨c, rfl, hl, rfl⟩ | ⟨spu, r', l', rfl, hst, rfl⟩ | ⟨v, rfl, hl, rfl⟩ |
    ⟨f, pos, rfl, hl, rfl⟩
  · refine h.update (fun sp hk ↦ ?_) (fun sc hk ↦ ?_)
    · cases c with
      | push f | tryPush f =>
        simp only [Call.entry, ringPush, ringTryPush, Loc.enqKind, Enq.sp, Option.some.injEq] at hk
        exact ⟨Or.inl hok, fun hsp ↦ ⟨hok, hk.trans hsp⟩⟩
      | claim =>
        simp only [Call.entry, ringClaim, Loc.enqKind, Enq.sp, Option.some.injEq] at hk
        exact ⟨Or.inr hok, fun hsp ↦ absurd (hk.trans hsp) (by decide)⟩
      | _ => simp [Call.entry, ringPop, ringClose, ringReopen, ringWaitSpace, ringDepth,
          Loc.enqKind] at hk
    · cases c with
      | pop =>
        simp only [Call.entry, ringPop, Loc.popKind, Option.some.injEq] at hk
        exact ⟨hok, fun hsc ↦ hk.trans hsc⟩
      | _ => simp [Call.entry, ringPush, ringTryPush, ringClaim, ringClose, ringReopen,
          ringWaitSpace, ringDepth, Loc.popKind] at hk
  · obtain ⟨henq, hpop⟩ := Ring.step_kinds hst
    refine h.update (fun sp hk ↦ ?_) (fun sc hk ↦ ?_)
    · rcases henq with hn | he
      · rw [hn] at hk
        cases hk
      · exact h.enq a sp (he ▸ hk)
    · rcases hpop with hn | he
      · rw [hn] at hk
        cases hk
      · exact h.pop a sc (he ▸ hk)
  · exact h.update (fun sp hk ↦ by simp [Loc.enqKind] at hk) (fun sc hk ↦ by simp [Loc.popKind] at hk)
  · refine h.update (fun sp hk ↦ ?_) (fun sc hk ↦ by simp [ringCommit, Loc.popKind] at hk)
    simp only [ringCommit, Loc.enqKind, Option.some.injEq] at hk
    exact ⟨(h.enq a false (by rw [hl]; rfl)).1, fun hsp ↦ absurd (hk.trans hsp) (by decide)⟩

end Roles

end Awp
