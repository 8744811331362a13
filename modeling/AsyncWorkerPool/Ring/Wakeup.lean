import AsyncWorkerPool.Foundation.Counted
import AsyncWorkerPool.Ring.Linear

/-!
# Wakeup — no thread sleeps through the change it waits for

Producers and consumers share one mutex, one condition variable and one counter of parked threads,
and skip the mutex when they read a counter of 0.  A thread that has changed what another one waits
for `announces` the change until it has broadcast; `WakeInv` says that a thread asleep with no
broadcast since is either right to wait or has such an announcer.
-/

open Foundation

namespace Awp

/-- What can end a wait. -/
inductive Change where
  | closed | popped | pushed
  deriving DecidableEq

section Places

variable {F : Type}

/-- On the way to a broadcast: the counter still to be read, the mutex to be taken. -/
def Wake.ahead : Wake → Bool
  | .load | .lock | .broadcast => true
  | .unlock => false

/-- The result that a call which has made the change is going to return. -/
def Ret.follows : Change → Ret Nat F → Bool
  | .closed, .flag v => v
  | .pushed, .rc n => n == 0
  | .popped, .popped _ _ => true
  | _, _ => false

/-- Between a change and the broadcast of the call that made it. -/
def Loc.announces (c : Change) : Loc Nat F → Bool
  | .popData .. | .popClear .. | .popStore .. => c == .popped
  | .held _ => c == .pushed
  | .pubData sp _ _ | .pubSeq sp _ _ => c == .pushed && !sp
  | .wake w v => w.ahead && v.follows c
  | _ => false

/-- Accesses left before the broadcast (a claim has to be committed first). -/
def Loc.toBroadcast : Loc Nat F → Nat
  | .held _ => 6
  | .pubData .. | .popData .. => 5
  | .pubSeq .. | .popClear .. => 4
  | .popStore .. => 3
  | .wake .load _ => 2
  | .wake .lock _ => 1
  | _ => 0

/-- Holding `wait_mu`. -/
def Loc.locks : Loc Nat F → Bool
  | .wait _ w _ =>
    match w with
    | .ldClosed | .ldEnq | .ldDeq _ | .sleep | .unlock => true
    | _ => false
  | .wake .broadcast _ | .wake .unlock _ => true
  | _ => false

/-- Counted in `waiters`. -/
def Loc.parked : Loc Nat F → Bool
  | .wait _ .inc _ => false
  | .wait _ _ _ => true
  | _ => false

/-- The change that ends a wait on an open ring. -/
def WaitFor.change : WaitFor → Change
  | .space => .popped
  | .data => .pushed

end Places

/-! ## What one access does to the waiting machinery -/

section Effects

variable {A F : Type} {cap : Nat} {a : A} {spurious : Bool} {r r' : Ring Nat A F} {l l' : Loc Nat F}

theorem Enq.places (k : Enq F) (spin pos : Nat) :
    ((k.ready spin pos).locks = false ∧ (k.full spin).locks = false ∧
      (k.ahead spin).locks = false ∧ (k.lost spin).locks = false ∧
      (k.reserved pos).locks = false) ∧
    ((k.ready spin pos).parked = false ∧ (k.full spin).parked = false ∧
      (k.ahead spin).parked = false ∧ (k.lost spin).parked = false ∧
      (k.reserved pos).parked = false) := by
  cases k with
  | push sp f =>
    cases sp <;> by_cases hs : spin < spinBudget <;>
      simp [Enq.ready, Enq.full, Enq.ahead, Enq.lost, Enq.reserved, Loc.locks, Loc.parked, hs]
  | tryPush sp f =>
    cases sp <;>
      simp [Enq.ready, Enq.full, Enq.ahead, Enq.lost, Enq.reserved, Loc.locks, Loc.parked]
  | claim => simp [Enq.ready, Enq.full, Enq.ahead, Enq.lost, Enq.reserved, Loc.locks, Loc.parked]

/-- The mutex changes hands as the locations say. -/
theorem Ring.step_mutex (h : r.step cap a spurious l = some (r', l')) :
    (l'.locks = l.locks ∧ r'.waitMu = r.waitMu) ∨
    (l.locks = false ∧ l'.locks = true ∧ r.waitMu = none ∧ r'.waitMu = some a) ∨
    (l.locks = true ∧ l'.locks = false ∧ r'.waitMu = none) := by
  cases l with
  | wake w v => cases w <;> simp only [Ring.step, Ring.wakeStep] at h <;> grind [Loc.locks]
  | wait q w k =>
    cases k <;> cases w <;> simp only [Ring.step, Ring.waitStep] at h <;>
      grind [Loc.locks, Resume.loc]
  | enqSeq k spin pos | enqCas k spin pos =>
    have hk := k.places spin pos
    simp only [Ring.step] at h
    grind [Loc.locks]
  | popTake sc spin pos => cases sc <;> simp only [Ring.step] at h <;> grind [Loc.locks]
  | _ =>
    simp only [Ring.step, Ring.setCell] at h
    grind [Loc.locks]

/-- The counter of parked threads changes as the locations say. -/
theorem Ring.step_parked (h : r.step cap a spurious l = some (r', l')) :
    (l'.parked = l.parked ∧ r'.waiters = r.waiters) ∨
    (l.parked = false ∧ l'.parked = true ∧ r'.waiters = r.waiters + 1) ∨
    (l.parked = true ∧ l'.parked = false ∧ r'.waiters = r.waiters - 1) := by
  cases l with
  | wake w v => cases w <;> simp only [Ring.step, Ring.wakeStep] at h <;> grind [Loc.parked]
  | wait q w k =>
    cases k <;> cases w <;> simp only [Ring.step, Ring.waitStep] at h <;>
      grind [Loc.parked, Resume.loc]
  | enqSeq k spin pos | enqCas k spin pos =>
    have hk := k.places spin pos
    simp only [Ring.step] at h
    grind [Loc.parked]
  | popTake sc spin pos => cases sc <;> simp only [Ring.step] at h <;> grind [Loc.parked]
  | _ =>
    simp only [Ring.step, Ring.setCell] at h
    grind [Loc.parked]

/-- Only a broadcast moves the condition variable on. -/
theorem Ring.step_cv (h : r.step cap a spurious l = some (r', l')) :
    r'.waitCv = r.waitCv ∨ (l.locks = true ∧ r'.waitCv = r.waitCv + 1) := by
  cases l with
  | wake w v => cases w <;> simp only [Ring.step, Ring.wakeStep] at h <;> grind [Loc.locks]
  | wait q w k => cases w <;> simp only [Ring.step, Ring.waitStep] at h <;> grind
  | popTake sc spin pos => cases sc <;> simp only [Ring.step] at h <;> grind
  | _ =>
    simp only [Ring.step, Ring.setCell] at h
    grind

/-- Closing the ring is announced. -/
theorem Ring.step_closed (h : r.step cap a spurious l = some (r', l')) :
    r'.closed = r.closed ∨ r'.closed = false ∨ l'.announces .closed = true := by
  cases l with
  | wake w v => cases w <;> simp only [Ring.step, Ring.wakeStep] at h <;> grind
  | wait q w k => cases w <;> simp only [Ring.step, Ring.waitStep] at h <;> grind
  | popTake sc spin pos => cases sc <;> simp only [Ring.step] at h <;> grind
  | setClosed v =>
    simp only [Ring.step, Option.some.injEq, Prod.mk.injEq] at h
    obtain ⟨rfl, rfl⟩ := h
    cases v with
    | true => exact Or.inr (Or.inr rfl)
    | false => exact Or.inr (Or.inl rfl)
  | _ =>
    simp only [Ring.step, Ring.setCell] at h
    grind

/-- An announcement is kept up until the broadcast, unless nobody is parked. -/
theorem Ring.step_announces (h : r.step cap a spurious l = some (r', l')) {c : Change}
    (hc : l.announces c = true) :
    (l'.announces c = true ∧ l'.toBroadcast < l.toBroadcast) ∨
    (l.locks = true ∧ r'.waitCv = r.waitCv + 1) ∨ r.waiters ≤ 0 := by
  cases l with
  | wake w v =>
    cases w <;> simp only [Ring.step, Ring.wakeStep] at h <;>
      grind [Loc.announces, Wake.ahead, Loc.toBroadcast, Loc.locks]
  | popTake sc spin pos => cases hc
  | _ =>
    simp only [Ring.step, Ring.setCell] at h
    grind [Loc.announces, Wake.ahead, Loc.toBroadcast, Ret.follows]

/-- `enqueue_pos` moves by one, and the move is announced. -/
theorem Ring.step_enq {s : RingSys A F} {g : Nat → Lap A F} {cap : Capacity} (hc : Cells cap s g)
    (h : s.ring.step cap.val a spurious (s.loc a) = some (r', l')) :
    r'.enqueuePos = s.ring.enqueuePos ∨
      (r'.enqueuePos = s.ring.enqueuePos + 1 ∧ l'.announces .pushed = true) := by
  have hloc := hc.locs a
  generalize hl : s.loc a = l at h hloc
  cases l with
  | wake w v => cases w <;> simp only [Ring.step, Ring.wakeStep] at h <;> grind
  | wait q w k => cases w <;> simp only [Ring.step, Ring.waitStep] at h <;> grind
  | popTake sc spin pos => cases sc <;> simp only [Ring.step] at h <;> grind
  | enqCas k spin pos =>
    have hsp : k.sp = false := hloc.2.2
    simp only [Ring.step, offset_nat] at h
    cases k <;> grind [Enq.sp, Enq.reserved, Enq.lost, Loc.announces]
  | pubEnq pos =>
    have hpos : pos = s.ring.enqueuePos := hloc.1
    simp only [Ring.step, offset_nat] at h
    grind [Loc.announces, Wake.ahead, Ret.follows]
  | _ =>
    simp only [Ring.step, Ring.setCell] at h
    grind

/-- `dequeue_pos` moves by one, and the move is announced. -/
theorem Ring.step_deq {s : RingSys A F} {g : Nat → Lap A F} {cap : Capacity} (hc : Cells cap s g)
    (h : s.ring.step cap.val a spurious (s.loc a) = some (r', l')) :
    r'.dequeuePos = s.ring.dequeuePos ∨
      (r'.dequeuePos = s.ring.dequeuePos + 1 ∧ l'.announces .popped = true) := by
  have hloc := hc.locs a
  generalize hl : s.loc a = l at h hloc
  cases l with
  | wake w v => cases w <;> simp only [Ring.step, Ring.wakeStep] at h <;> grind
  | wait q w k => cases w <;> simp only [Ring.step, Ring.waitStep] at h <;> grind
  | popTake sc spin pos =>
    have hpos : sc = true → pos = s.ring.dequeuePos := hloc.2.1
    cases sc <;> simp only [Ring.step, offset_nat] at h <;> grind [Loc.announces]
  | _ =>
    simp only [Ring.step, Ring.setCell] at h
    grind

end Effects

/-! ## The invariant -/

section Invariant

variable {A F : Type}

/-- Some thread announces the change. -/
def Announced (s : RingSys A F) (c : Change) : Prop := ∃ b, (s.loc b).announces c = true

/-- The thread waits for something that has not happened, or that somebody announces. -/
def WaitFor.Justified (cap : Capacity) (s : RingSys A F) : WaitFor → Prop
  | .space => s.ring.dequeuePos + cap.val ≤ s.ring.enqueuePos ∨ Announced s .popped
  | .data => s.ring.enqueuePos ≤ s.ring.dequeuePos ∨ Announced s .pushed

/-- The ring is open, or somebody announces that it is not. -/
def OpenOrAnnounced (s : RingSys A F) : Prop := s.ring.closed = false ∨ Announced s .closed

/-- What a thread inside `awp_ring_wait_space` or `awp_ring_wait_data` knows. -/
def WaitOk (cap : Capacity) (s : RingSys A F) (q : WaitFor) : Wait Nat → Prop
  | .ldEnq => OpenOrAnnounced s
  | .ldDeq enq => OpenOrAnnounced s ∧ enq ≤ s.ring.enqueuePos ∧
      (enq = s.ring.enqueuePos ∨ Announced s .pushed)
  | .sleep => OpenOrAnnounced s ∧ q.Justified cap s
  | .blocked ticket => ticket ≤ s.ring.waitCv ∧
      (ticket = s.ring.waitCv → OpenOrAnnounced s ∧ q.Justified cap s)
  | _ => True

/-- The waiting machinery of a ring. -/
structure WakeInv (cap : Capacity) (s : RingSys A F) : Prop where
  mutex : ∀ a, s.ring.waitMu = some a ↔ (s.loc a).locks = true
  counted : Counted (fun a ↦ (s.loc a).parked = true) s.ring.waiters
  waits : ∀ a q w k, s.loc a = .wait q w k → WaitOk cap s q w

theorem WakeInv.start {cap : Capacity} (frames : Nat → F) :
    WakeInv cap (RingSys.start (Ring.init frames) : RingSys A F) where
  mutex a := by simp [RingSys.start, Ring.init, Loc.locks]
  counted := Counted.zero (fun a ↦ by simp [RingSys.start, Loc.parked])
  waits a q w k h := by simp [RingSys.start] at h

/-- At most one thread holds the mutex. -/
theorem WakeInv.locks_unique {cap : Capacity} {s : RingSys A F} (h : WakeInv cap s) {a b : A}
    (ha : (s.loc a).locks = true) (hb : (s.loc b).locks = true) : a = b := by
  have he := ((h.mutex a).mpr ha).symm.trans ((h.mutex b).mpr hb)
  exact Option.some.inj he

variable [DecidableEq A]

theorem Announced.other {s : RingSys A F} {c : Change} {a : A} {r' : Ring Nat A F} {l' : Loc Nat F}
    (h : Announced s c) (hkeep : (s.loc a).announces c = true → l'.announces c = true) :
    Announced ⟨r', Function.update s.loc a l'⟩ c := by
  obtain ⟨b, hb⟩ := h
  refine ⟨b, ?_⟩
  by_cases hba : b = a
  · subst hba
    simpa only [Function.update_self] using hkeep hb
  · simpa only [Function.update_of_ne hba] using hb

theorem Announced.self {s : RingSys A F} {c : Change} {a : A} {r' : Ring Nat A F} {l' : Loc Nat F}
    (h : l'.announces c = true) : Announced ⟨r', Function.update s.loc a l'⟩ c :=
  ⟨a, by simpa only [Function.update_self] using h⟩

/-- What a move of thread `a` may change under the feet of a waiting thread. -/
structure Disturbs (s : RingSys A F) (a : A) (r' : Ring Nat A F) (l' : Loc Nat F) : Prop where
  closed : r'.closed = s.ring.closed ∨ r'.closed = false ∨ l'.announces .closed = true
  enq : r'.enqueuePos = s.ring.enqueuePos ∨
    (r'.enqueuePos = s.ring.enqueuePos + 1 ∧ l'.announces .pushed = true)
  deq : r'.dequeuePos = s.ring.dequeuePos ∨
    (r'.dequeuePos = s.ring.dequeuePos + 1 ∧ l'.announces .popped = true)
  cv : r'.waitCv = s.ring.waitCv ∨
    ((s.loc a).locks = true ∧ r'.waitCv = s.ring.waitCv + 1)
  keep : ∀ c, (s.loc a).announces c = true → l'.announces c = true ∨
    ((s.loc a).locks = true ∧ r'.waitCv = s.ring.waitCv + 1)

/-- A move without a broadcast keeps what a waiting thread relies on. -/
theorem Disturbs.openOrAnnounced {s : RingSys A F} {a : A} {r' : Ring Nat A F} {l' : Loc Nat F}
    (hd : Disturbs s a r' l') (hcv : r'.waitCv = s.ring.waitCv) (h : OpenOrAnnounced s) :
    OpenOrAnnounced ⟨r', Function.update s.loc a l'⟩ := by
  have hkeep : ∀ c, (s.loc a).announces c = true → l'.announces c = true := fun c hc ↦ by
    rcases hd.keep c hc with hk | ⟨-, hk⟩
    · exact hk
    · omega
  rcases h with ho | ha
  · rcases hd.closed with he | he | he
    · exact Or.inl (he.trans ho)
    · exact Or.inl he
    · exact Or.inr (.self he)
  · exact Or.inr (ha.other (hkeep _))

theorem Disturbs.justified {cap : Capacity} {s : RingSys A F} {a : A} {r' : Ring Nat A F}
    {l' : Loc Nat F} {q : WaitFor} (hd : Disturbs s a r' l') (hcv : r'.waitCv = s.ring.waitCv)
    (h : q.Justified cap s) : q.Justified cap ⟨r', Function.update s.loc a l'⟩ := by
  have hkeep : ∀ c, (s.loc a).announces c = true → l'.announces c = true := fun c hc ↦ by
    rcases hd.keep c hc with hk | ⟨-, hk⟩
    · exact hk
    · omega
  cases q with
  | space =>
    rcases h with hle | ha
    · rcases hd.deq with he | ⟨-, he⟩
      · left
        rcases hd.enq with he' | ⟨he', -⟩ <;> simp only <;> omega
      · exact Or.inr (.self he)
    · exact Or.inr (ha.other (hkeep _))
  | data =>
    rcases h with hle | ha
    · rcases hd.enq with he | ⟨-, he⟩
      · left
        rcases hd.deq with he' | ⟨he', -⟩ <;> simp only <;> omega
      · exact Or.inr (.self he)
    · exact Or.inr (ha.other (hkeep _))

/-- What a waiting thread knows survives the moves of the others. -/
theorem Disturbs.waitOk {cap : Capacity} {s : RingSys A F} {a : A} {r' : Ring Nat A F}
    {l' : Loc Nat F} (hinv : WakeInv cap s) (hd : Disturbs s a r' l') {b : A} (hba : b ≠ a)
    {q : WaitFor} {w : Wait Nat} {k : Resume F} (hl : s.loc b = .wait q w k)
    (h : WaitOk cap s q w) : WaitOk cap ⟨r', Function.update s.loc a l'⟩ q w := by
  have hkeep : r'.waitCv = s.ring.waitCv → ∀ c, (s.loc a).announces c = true →
      l'.announces c = true := fun hcv c hc ↦ by
    rcases hd.keep c hc with hk | ⟨-, hk⟩
    · exact hk
    · omega
  -- a thread that holds the mutex is not disturbed by a broadcast
  have hquiet : (s.loc b).locks = true → r'.waitCv = s.ring.waitCv := by
    intro hb
    rcases hd.cv with he | ⟨ha, -⟩
    · exact he
    · exact absurd (hinv.locks_unique hb ha) hba
  cases w with
  | ldEnq =>
    have hcv := hquiet (by rw [hl]; rfl)
    exact hd.openOrAnnounced hcv h
  | ldDeq enq =>
    have hcv := hquiet (by rw [hl]; rfl)
    obtain ⟨ho, hle, hor⟩ := h
    refine ⟨hd.openOrAnnounced hcv ho, ?_, ?_⟩
    · rcases hd.enq with he | ⟨he, -⟩ <;> simp only <;> omega
    · rcases hor with heq | ha
      · rcases hd.enq with he | ⟨-, he⟩
        · exact Or.inl (heq.trans he.symm)
        · exact Or.inr (.self he)
      · exact Or.inr (ha.other (hkeep hcv _))
  | sleep =>
    have hcv := hquiet (by rw [hl]; rfl)
    exact ⟨hd.openOrAnnounced hcv h.1, hd.justified hcv h.2⟩
  | blocked ticket =>
    obtain ⟨hle, hsame⟩ := h
    refine ⟨?_, fun ht ↦ ?_⟩
    · rcases hd.cv with he | ⟨-, he⟩ <;> simp only <;> omega
    · have hcv : r'.waitCv = s.ring.waitCv := by
        rcases hd.cv with he | ⟨-, he⟩
        · exact he
        · simp only at ht
          omega
      obtain ⟨ho, hj⟩ := hsame (ht.trans hcv)
      exact ⟨hd.openOrAnnounced hcv ho, hd.justified hcv hj⟩
  | _ => trivial

omit [DecidableEq A] in
/-- With somebody parked, an access disturbs nobody without announcing it. -/
theorem Disturbs.of_access {cap : Capacity} {s : RingSys A F} {g : Nat → Lap A F}
    (hc : Cells cap s g) (hpos : 0 < s.ring.waiters) {a : A} {spurious : Bool} {r' : Ring Nat A F}
    {l' : Loc Nat F} (h : s.ring.step cap.val a spurious (s.loc a) = some (r', l')) :
    Disturbs s a r' l' where
  closed := Ring.step_closed h
  enq := Ring.step_enq hc h
  deq := Ring.step_deq hc h
  cv := Ring.step_cv h
  keep c hann := by
    rcases Ring.step_announces h hann with ⟨hk, -⟩ | hb | hz
    · exact Or.inl hk
    · exact Or.inr hb
    · omega

omit [DecidableEq A] in
/-- A wait is entered at its beginning. -/
theorem Ring.step_wait {cap : Nat} {a : A} {spurious : Bool} {r r' : Ring Nat A F} {l : Loc Nat F}
    {q : WaitFor} {w : Wait Nat} {k : Resume F}
    (h : r.step cap a spurious l = some (r', .wait q w k)) :
    w = .inc ∨ ∃ w₀, l = .wait q w₀ k ∧ r.waitStep cap a spurious q k w₀ = some (r', .wait q w k) := by
  cases l with
  | wait q₀ w₀ k₀ =>
    right
    have h' := h
    simp only [Ring.step] at h'
    cases k₀ <;> cases w₀ <;> simp only [Ring.waitStep] at h' <;> grind [Ring.step, Resume.loc]
  | wake w v => cases w <;> simp only [Ring.step, Ring.wakeStep] at h <;> grind
  | enqSeq j spin pos =>
    left
    simp only [Ring.step] at h
    cases j with
    | push sp f => cases sp <;> grind [Enq.ready, Enq.full, Enq.ahead]
    | tryPush sp f => cases sp <;> grind [Enq.ready, Enq.full, Enq.ahead]
    | claim => grind [Enq.ready, Enq.full, Enq.ahead]
  | enqCas j spin pos =>
    simp only [Ring.step] at h
    cases j <;> grind [Enq.reserved, Enq.lost]
  | popTake sc spin pos => cases sc <;> simp only [Ring.step] at h <;> grind
  | _ =>
    simp only [Ring.step] at h
    grind

/-- The wait condition is checked under the mutex: what a thread relies on when it goes to sleep
is still so, or announced. -/
theorem WaitOk.own {cap : Capacity} {s : RingSys A F} {a : A} {spurious : Bool} {q : WaitFor}
    {w w' : Wait Nat} {k : Resume F} {r' : Ring Nat A F} (hl : s.loc a = .wait q w k)
    (h : WaitOk cap s q w)
    (hs : s.ring.waitStep cap.val a spurious q k w = some (r', .wait q w' k)) :
    WaitOk cap ⟨r', Function.update s.loc a (.wait q w' k)⟩ q w' := by
  have hcap := cap.pos
  have hann : ∀ r'' c, Announced s c →
      Announced ⟨r'', Function.update s.loc a (.wait q w' k)⟩ c := fun r'' c hc ↦
    hc.other (fun ha ↦ by rw [hl] at ha; cases ha)
  have hopen : ∀ r'', r''.closed = s.ring.closed → OpenOrAnnounced s →
      OpenOrAnnounced ⟨r'', Function.update s.loc a (.wait q w' k)⟩ := fun r'' hr ho ↦ by
    rcases ho with ho | ho
    · exact Or.inl (hr.trans ho)
    · exact Or.inr (hann r'' _ ho)
  cases w with
  | inc | unlock =>
    simp only [Ring.waitStep, Option.some.injEq, Prod.mk.injEq, Loc.wait.injEq, true_and,
      and_true] at hs
    obtain ⟨-, rfl⟩ := hs
    trivial
  | lock | relock =>
    simp only [Ring.waitStep] at hs
    split at hs
    · simp only [Option.some.injEq, Prod.mk.injEq, Loc.wait.injEq, true_and, and_true] at hs
      obtain ⟨-, rfl⟩ := hs
      trivial
    · cases hs
  | ldClosed =>
    simp only [Ring.waitStep, Option.some.injEq, Prod.mk.injEq] at hs
    obtain ⟨rfl, hl'⟩ := hs
    split at hl'
    · simp only [Loc.wait.injEq, true_and, and_true] at hl'
      subst hl'
      trivial
    · rename_i hclosed
      simp only [Loc.wait.injEq, true_and, and_true] at hl'
      subst hl'
      exact Or.inl (by simpa using hclosed)
  | ldEnq =>
    simp only [Ring.waitStep, Option.some.injEq, Prod.mk.injEq, Loc.wait.injEq, true_and,
      and_true] at hs
    obtain ⟨rfl, rfl⟩ := hs
    exact ⟨hopen _ rfl h, le_rfl, Or.inl rfl⟩
  | ldDeq enq =>
    obtain ⟨ho, hle, hor⟩ := h
    simp only [Ring.waitStep] at hs
    split at hs
    · rename_i hmust
      simp only [Option.some.injEq, Prod.mk.injEq, Loc.wait.injEq, true_and, and_true] at hs
      obtain ⟨rfl, rfl⟩ := hs
      refine ⟨hopen _ rfl ho, ?_⟩
      cases q with
      | space =>
        -- the loaded depth only underestimates the present one
        simp only [WaitFor.mustWait, depth_nat, decide_eq_true_eq] at hmust
        left
        split at hmust <;> simp only <;> omega
      | data =>
        simp only [WaitFor.mustWait, depth_nat, beq_iff_eq] at hmust
        rcases hor with heq | ha
        · left
          split at hmust <;> simp only <;> omega
        · exact Or.inr (hann _ _ ha)
    · simp only [Option.some.injEq, Prod.mk.injEq, Loc.wait.injEq, true_and, and_true] at hs
      obtain ⟨-, rfl⟩ := hs
      trivial
  | sleep =>
    simp only [Ring.waitStep, Option.some.injEq, Prod.mk.injEq, Loc.wait.injEq, true_and,
      and_true] at hs
    obtain ⟨rfl, rfl⟩ := hs
    refine ⟨le_rfl, fun _ ↦ ⟨hopen _ rfl h.1, ?_⟩⟩
    have hj := h.2
    cases q with
    | space | data =>
      rcases hj with hle | ha
      · exact Or.inl hle
      · exact Or.inr (hann _ _ ha)
  | blocked ticket =>
    simp only [Ring.waitStep] at hs
    split at hs
    · simp only [Option.some.injEq, Prod.mk.injEq, Loc.wait.injEq, true_and, and_true] at hs
      obtain ⟨-, rfl⟩ := hs
      trivial
    · cases hs
  | dec =>
    simp only [Ring.waitStep, Option.some.injEq, Prod.mk.injEq] at hs
    obtain ⟨-, hk⟩ := hs
    cases k <;> cases hk

omit [DecidableEq A] in
theorem WaitOk.of_not_parked {cap : Capacity} {s : RingSys A F} {q : WaitFor} {w : Wait Nat}
    {k : Resume F} (h : (Loc.wait q w k).parked = false) : WaitOk cap s q w := by
  cases w with
  | inc => trivial
  | _ => cases h

theorem WakeInv.access {cap : Capacity} {s : RingSys A F} {g : Nat → Lap A F} (h : WakeInv cap s)
    (hc : Cells cap s g) {a : A} {spurious : Bool} {r' : Ring Nat A F} {l' : Loc Nat F}
    (hs : s.ring.step cap.val a spurious (s.loc a) = some (r', l')) :
    WakeInv cap ⟨r', Function.update s.loc a l'⟩ where
  mutex b := by
    have hold := h.mutex
    by_cases hba : b = a
    · subst hba
      simp only [Function.update_self]
      rcases Ring.step_mutex hs with ⟨hl, hm⟩ | ⟨-, hl, -, hm⟩ | ⟨-, hl, hm⟩
      · rw [hl, hm]
        exact hold b
      · simp [hl, hm]
      · simp [hl, hm]
    · simp only [Function.update_of_ne hba]
      rcases Ring.step_mutex hs with ⟨-, hm⟩ | ⟨-, -, hn, hm⟩ | ⟨hl, -, hm⟩
      · rw [hm]
        exact hold b
      · rw [hm]
        have hb : ¬ (s.loc b).locks = true := fun hb ↦ by
          rw [(hold b).mpr hb] at hn
          cases hn
        exact ⟨fun he ↦ absurd (Option.some.inj he).symm hba, fun hb' ↦ absurd hb' hb⟩
      · rw [hm]
        exact ⟨fun he ↦ (by cases he), fun hb ↦ absurd (h.locks_unique hb hl) hba⟩
  counted := by
    have hparked : ∀ b, b ≠ a →
        ((Function.update s.loc a l' b).parked = true ↔ (s.loc b).parked = true) := fun b hb ↦ by
      rw [Function.update_of_ne hb]
    rcases Ring.step_parked hs with ⟨hp, hw⟩ | ⟨hp, hp', hw⟩ | ⟨hp, hp', hw⟩
    · rw [show r'.waiters = s.ring.waiters from hw]
      refine h.counted.congr fun b ↦ ?_
      by_cases hba : b = a
      · subst hba
        simp only [Function.update_self, hp]
      · exact (hparked b hba).symm
    · rw [show r'.waiters = s.ring.waiters + 1 from hw]
      refine h.counted.enter (b := a) (by simp [hp]) fun b ↦ ?_
      by_cases hba : b = a
      · subst hba
        simp [hp']
      · simp only [hparked b hba, hba, or_false]
    · rw [show r'.waiters = s.ring.waiters - 1 from hw]
      refine h.counted.leave (b := a) hp fun b ↦ ?_
      by_cases hba : b = a
      · subst hba
        simp [hp']
      · simp only [hparked b hba, ne_eq, hba, not_false_eq_true, and_true]
  waits b q w k hl := by
    by_cases hba : b = a
    · subst hba
      simp only [Function.update_self] at hl
      subst hl
      rcases Ring.step_wait hs with rfl | ⟨w₀, hl₀, hw⟩
      · trivial
      · exact WaitOk.own hl₀ (h.waits b q w₀ k hl₀) hw
    · simp only [Function.update_of_ne hba] at hl
      cases hp : (s.loc b).parked with
      | false =>
        rw [hl] at hp
        exact WaitOk.of_not_parked hp
      | true =>
        exact (Disturbs.of_access hc (h.counted.pos hp) hs).waitOk h hba hl (h.waits b q w k hl)

/-- Entering, leaving and committing concern neither the mutex nor the counter. -/
theorem WakeInv.client {cap : Capacity} {s : RingSys A F} (h : WakeInv cap s) {a : A}
    {l' : Loc Nat F} (hcl : Client (s.loc a) l') :
    WakeInv cap ⟨s.ring, Function.update s.loc a l'⟩ := by
  have hplaces : l'.locks = (s.loc a).locks ∧ l'.parked = (s.loc a).parked ∧
      (∀ c, (s.loc a).announces c = true → l'.announces c = true) ∧
      ∀ q w k, l' = .wait q w k → w = .inc := by
    generalize s.loc a = l at hcl
    cases hcl with
    | enter he => cases he <;> simp [ringPush, ringTryPush, ringPop, ringClaim, ringClose,
        ringReopen, ringWaitSpace, ringDepth, Loc.locks, Loc.parked, Loc.announces]
    | leave v => simp [Loc.locks, Loc.parked, Loc.announces]
    | commit f pos => simp [ringCommit, Loc.locks, Loc.parked, Loc.announces]
  obtain ⟨hlocks, hparked, hann, hwait⟩ := hplaces
  have hdist : Disturbs s a s.ring l' :=
    { closed := Or.inl rfl, enq := Or.inl rfl, deq := Or.inl rfl, cv := Or.inl rfl
      keep := fun c hc ↦ Or.inl (hann c hc) }
  have hsame : ∀ {β : Type} (k : Loc Nat F → β), k l' = k (s.loc a) →
      ∀ b, k (Function.update s.loc a l' b) = k (s.loc b) := by
    intro β k hk b
    by_cases hb : b = a
    · subst hb
      rw [Function.update_self, hk]
    · rw [Function.update_of_ne hb]
  refine ⟨fun b ↦ ?_, ?_, fun b q w k hl ↦ ?_⟩
  · simpa only [hsame Loc.locks hlocks] using h.mutex b
  · simpa only [hsame Loc.parked hparked] using h.counted
  · by_cases hba : b = a
    · subst hba
      simp only [Function.update_self] at hl
      rw [hwait q w k hl]
      trivial
    · simp only [Function.update_of_ne hba] at hl
      exact hdist.waitOk h hba hl (h.waits b q w k hl)

theorem WakeInv.move {cap : Capacity} {s s' : RingSys A F} {g : Nat → Lap A F}
    (h : WakeInv cap s) (hc : Cells cap s g) (hm : Move cap s s') : WakeInv cap s' := by
  cases hm with
  | access a spurious hs => exact h.access hc hs
  | client a hcl => exact h.client hcl

end Invariant

/-! ## No lost wakeup -/

section NoLostWakeup

variable {A F : Type} {cap : Capacity} {s : RingSys A F}

/-- Thread `w` is inside `pthread_cond_wait` and no broadcast has been made since it began. -/
def Asleep (s : RingSys A F) (w : A) (q : WaitFor) (ticket : Nat) : Prop :=
  (∃ k, s.loc w = .wait q (.blocked ticket) k) ∧ ticket = s.ring.waitCv

/-- What the change of kind `c` has done to the condition `q` waits on. -/
def Falsified (cap : Capacity) (s : RingSys A F) (q : WaitFor) (c : Change) : Prop :=
  (c = .closed ∧ s.ring.closed = true) ∨
    (c = q.change ∧ q.mustWait cap.val (s.ring.depth cap.val) = false)

theorem WaitFor.mustWait_of_full (hle : s.ring.dequeuePos + cap.val ≤ s.ring.enqueuePos) :
    WaitFor.mustWait cap.val .space (s.ring.depth cap.val) = true := by
  rw [WaitFor.mustWait, Ring.depth, depth_nat, decide_eq_true_eq, if_neg (by omega)]
  omega

theorem WaitFor.mustWait_of_empty (hle : s.ring.enqueuePos ≤ s.ring.dequeuePos) :
    WaitFor.mustWait cap.val .data (s.ring.depth cap.val) = true := by
  rw [WaitFor.mustWait, Ring.depth, depth_nat, beq_iff_eq]
  split <;> omega

/-- A sleeper that need not wait has somebody on the way to wake it. -/
theorem WakeInv.announcer (h : WakeInv cap s) {w : A} {q : WaitFor} {ticket : Nat}
    (hsleep : Asleep s w q ticket)
    (hcond : s.ring.closed = true ∨ q.mustWait cap.val (s.ring.depth cap.val) = false) :
    ∃ b c, b ≠ w ∧ Falsified cap s q c ∧ (s.loc b).announces c = true := by
  obtain ⟨⟨k, hl⟩, hticket⟩ := hsleep
  obtain ⟨-, hok⟩ := h.waits w q _ k hl
  obtain ⟨hopen, hjust⟩ := hok hticket
  have hne : ∀ b c, (s.loc b).announces c = true → b ≠ w := by
    rintro b c hb rfl
    rw [hl] at hb
    cases hb
  rcases hcond with hclosed | hdepth
  · rcases hopen with ho | ⟨b, hb⟩
    · rw [hclosed] at ho
      cases ho
    · exact ⟨b, .closed, hne b _ hb, Or.inl ⟨rfl, hclosed⟩, hb⟩
  · cases q with
    | space =>
      rcases hjust with hle | ⟨b, hb⟩
      · rw [WaitFor.mustWait_of_full hle] at hdepth
        cases hdepth
      · exact ⟨b, .popped, hne b _ hb, Or.inr ⟨rfl, hdepth⟩, hb⟩
    | data =>
      rcases hjust with hle | ⟨b, hb⟩
      · rw [WaitFor.mustWait_of_empty hle] at hdepth
        cases hdepth
      · exact ⟨b, .pushed, hne b _ hb, Or.inr ⟨rfl, hdepth⟩, hb⟩

theorem WakeInv.waiters_pos (h : WakeInv cap s) {w : A} {q : WaitFor} {ticket : Nat}
    (hsleep : Asleep s w q ticket) : 0 < s.ring.waiters := by
  obtain ⟨⟨k, hl⟩, -⟩ := hsleep
  exact h.counted.pos (a := w) (by rw [hl]; rfl)

variable [DecidableEq A]

theorem RingInv.wake_run {mode : RingMode} {team : Team A} {r : Ring Nat A F}
    {frames : Nat → F} {v : UInt32} (hroles : Roles mode team)
    (hinit : ringInit v frames = some (cap, r))
    (hrun : Steps (rawStep cap mode) (inRole team) (.start r) s) : WakeInv cap s := by
  have hr := ringInit_eq hinit
  refine hrun.invariant_under (Q := fun s ↦ RingInv cap s ∧ Exclusive s.loc)
    (fun t ht ↦ RingInv.run hroles hinit ht) (fun s x s' hq _ hp _ hst ↦ ?_) (hr ▸ .start frames)
  obtain ⟨g, hc, -⟩ := hq.1.laps
  exact hp.move hc (rawStep_move hst)

/-- The moves of others leave a sleeper where it is. -/
theorem rawStep_sleeper {mode : RingMode} {w x : A} {act : RawAct F} {s' : RingSys A F}
    (hx : x ≠ w) (hst : rawStep cap mode s (x, act) = some s') :
    s.ring.waitCv ≤ s'.ring.waitCv ∧ s'.loc w = s.loc w := by
  rcases rawStep_cases hst with ⟨call, -, -, rfl⟩ | ⟨sp, r', l', -, hs, rfl⟩ | ⟨v, -, -, rfl⟩ |
    ⟨f, pos, -, -, rfl⟩
  · exact ⟨le_rfl, Function.update_of_ne hx.symm _ _⟩
  · refine ⟨?_, Function.update_of_ne hx.symm _ _⟩
    rcases Ring.step_cv hs with he | ⟨-, he⟩ <;> simp only <;> omega
  · exact ⟨le_rfl, Function.update_of_ne hx.symm _ _⟩
  · exact ⟨le_rfl, Function.update_of_ne hx.symm _ _⟩

/-- While thread `w` sleeps on, a thread that announces goes on announcing until it broadcasts:
it reads a positive counter, and every access brings it nearer to the broadcast. -/
theorem announces_step {mode : RingMode} (h : WakeInv cap s) {w b x : A} {act : RawAct F}
    {q : WaitFor} {ticket : Nat} {c : Change} {s' : RingSys A F} (hsleep : Asleep s w q ticket)
    (hb : (s.loc b).announces c = true) (hst : rawStep cap mode s (x, act) = some s') :
    ticket < s'.ring.waitCv ∨ ((s'.loc b).announces c = true ∧
      (x = b → (s'.loc b).toBroadcast < (s.loc b).toBroadcast)) := by
  have hpos := h.waiters_pos hsleep
  have hticket := hsleep.2
  have hcv : ∀ r' : Ring Nat A F, r'.waitCv = s.ring.waitCv + 1 → ticket < r'.waitCv := fun r' hr ↦ by
    omega
  by_cases hxb : x = b
  · subst hxb
    rcases rawStep_cases hst with ⟨call, -, hl, -⟩ | ⟨sp, r', l', -, hs, rfl⟩ | ⟨v, -, hl, -⟩ |
      ⟨f, pos, -, hl, rfl⟩
    · rw [hl] at hb
      cases hb
    · rcases Ring.step_announces hs hb with ⟨hk, hlt⟩ | ⟨-, hk⟩ | hz
      · exact Or.inr ⟨by simpa only [Function.update_self] using hk,
          fun _ ↦ by simpa only [Function.update_self] using hlt⟩
      · exact Or.inl (hcv r' hk)
      · omega
    · rw [hl] at hb
      cases hb
    · rw [hl] at hb
      refine Or.inr ⟨?_, fun _ ↦ ?_⟩
      · simpa only [Function.update_self, ringCommit, Loc.announces, Bool.not_false,
          Bool.and_true] using hb
      · simp only [Function.update_self, ringCommit, hl, Loc.toBroadcast]
        decide
  · have hloc : s'.loc b = s.loc b := by
      have hne : b ≠ x := fun he ↦ hxb he.symm
      rcases rawStep_cases hst with ⟨call, -, -, rfl⟩ | ⟨sp, r', l', -, -, rfl⟩ | ⟨v, -, -, rfl⟩ |
        ⟨f, pos, -, -, rfl⟩ <;>
      exact Function.update_of_ne hne _ _
    exact Or.inr ⟨by rw [hloc]; exact hb, fun he ↦ absurd he hxb⟩

/-- **No lost wakeup.**  Whenever a thread sleeps, unsignalled, on a ring that is closed or has
what it waits for, another thread has made that change and not yet broadcast (or holds a claim it
has yet to commit); for as long as the sleeper stays asleep that thread finds a positive counter,
and each access it makes is the broadcast or brings it nearer. -/
theorem no_lost_wakeup {mode : RingMode} {team : Team A} {r : Ring Nat A F} {frames : Nat → F}
    {v : UInt32} (hroles : Roles mode team) (hinit : ringInit v frames = some (cap, r))
    (hrun : Steps (rawStep cap mode) (inRole team) (.start r) s) {w : A} {q : WaitFor}
    {ticket : Nat} (hsleep : Asleep s w q ticket)
    (hcond : s.ring.closed = true ∨ q.mustWait cap.val (s.ring.depth cap.val) = false) :
    ∃ b c, b ≠ w ∧ Falsified cap s q c ∧ (s.loc b).announces c = true ∧
      ∀ s', Steps (rawStep cap mode) (fun t l ↦ inRole team t l ∧ l.1 ≠ w) s s' →
        ticket < s'.ring.waitCv ∨
        ((s'.loc b).announces c = true ∧ 0 < s'.ring.waiters ∧
          ∀ act s'', rawStep cap mode s' (b, act) = some s'' →
            ticket < s''.ring.waitCv ∨ (s''.loc b).toBroadcast < (s'.loc b).toBroadcast) := by
  obtain ⟨b, c, hbw, hfals, hann⟩ := (RingInv.wake_run hroles hinit hrun).announcer hsleep hcond
  refine ⟨b, c, hbw, hfals, hann, fun s' hrest ↦ ?_⟩
  -- along the rest of the run the sleeper does not move, so only a broadcast ends its sleep
  have hinv : ticket < s'.ring.waitCv ∨
      (Asleep s' w q ticket ∧ (s'.loc b).announces c = true) := by
    refine hrest.invariant_under
      (P := fun t ↦ ticket < t.ring.waitCv ∨ (Asleep t w q ticket ∧ (t.loc b).announces c = true))
      (Q := WakeInv cap)
      (fun t ht ↦ RingInv.wake_run hroles hinit (hrun.trans (ht.mono fun _ _ h ↦ h.1)))
      (fun t x t' hq _ hp hok hst ↦ ?_) (Or.inr ⟨hsleep, hann⟩)
    obtain ⟨x, act⟩ := x
    obtain ⟨hcv, hstay⟩ := rawStep_sleeper hok.2 hst
    rcases hp with hp | ⟨⟨⟨k, hl⟩, hticket⟩, hb⟩
    · exact Or.inl (hp.trans_le hcv)
    · rcases announces_step hq ⟨⟨k, hl⟩, hticket⟩ hb hst with hlt | ⟨hb', -⟩
      · exact Or.inl hlt
      · rcases Nat.lt_or_ge ticket t'.ring.waitCv with hlt | hge
        · exact Or.inl hlt
        · exact Or.inr ⟨⟨⟨k, hstay.trans hl⟩, by omega⟩, hb'⟩
  rcases hinv with hlt | ⟨hsleep', hb'⟩
  · exact Or.inl hlt
  · have hwake := RingInv.wake_run hroles hinit (hrun.trans (hrest.mono fun _ _ h ↦ h.1))
    refine Or.inr ⟨hb', hwake.waiters_pos hsleep', fun act s'' hst ↦ ?_⟩
    rcases announces_step hwake hsleep' hb' hst with hlt | ⟨-, hdec⟩
    · exact Or.inl hlt
    · exact Or.inr (hdec rfl)

end NoLostWakeup

/-- The producer fills a ring of two cells and waits for space; the consumer takes a position and
has yet to read its cell. -/
def fillAndTake : List (Bool × RawAct Nat) :=
  [(false, .call (.push 7))] ++ List.replicate 7 (false, .access false) ++ [(false, .leave)] ++
    [(false, .call (.push 8))] ++ List.replicate 7 (false, .access false) ++ [(false, .leave)] ++
    [(false, .call .waitSpace)] ++ List.replicate 6 (false, .access false) ++
    [(true, .call .pop)] ++ List.replicate 3 (true, .access false)

theorem no_lost_wakeup_fillAndTake : ∃ s : RingSys Bool Nat, Asleep s false .space 0 ∧
    ∃ b c, b ≠ false ∧ Falsified twoCells s .space c ∧ (s.loc b).announces c = true := by
  obtain ⟨s, hs, hp⟩ := exec_any (P := fun s : RingSys Bool Nat ↦
      decide (s.loc false = .wait .space (.blocked 0) .caller ∧ s.ring.waitCv = 0 ∧
        WaitFor.space.mustWait twoCells.val (s.ring.depth twoCells.val) = false))
    (show (exec (guarded (rawStep twoCells .spsc) (inRole pairTeam)) (.start (Ring.init id))
      fillAndTake).any _ = true by decide +kernel)
  obtain ⟨hl, hcv, hdepth⟩ := of_decide_eq_true hp
  have hsleep : Asleep s false .space 0 := ⟨⟨_, hl⟩, hcv.symm⟩
  obtain ⟨b, c, hb, hfals, hann, -⟩ := no_lost_wakeup (pairTeam_roles .spsc)
    (show ringInit 2 id = _ from rfl) (exec_guarded_steps hs) hsleep (Or.inr hdepth)
  exact ⟨s, hsleep, b, c, hb, hfals, hann⟩

end Awp
