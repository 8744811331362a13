import AsyncWorkerPool.Ring.Wakeup
import AsyncWorkerPool.Pool.Act

/-!
# Serve — what brings a worker closer to its next callback

A shard is served while its worker's thread is in its loop, has not been told to stop, and its ring
is open.  With the frame that is next in the ring, each step of the thread brings it closer to the
call of `process` for it, except that a weak exchange may fail and a callback may call
`awp_pool_destroy`; each access of whoever holds the ring's mutex brings its release closer.
-/

open Foundation

namespace Awp

/-! ## A pop on an open ring -/

section Pop

/-- Not about to report that the ring is closed. -/
def Loc.hopeful : Loc Nat Nat → Bool
  | .popAgain .. | .ret (.rc _) => false
  | _ => true

/-- Waiting for `wait_mu`. -/
def Loc.wantsMutex : Loc Nat Nat → Bool
  | .wake .lock _ | .wait _ .lock _ | .wait _ .relock _ => true
  | _ => false

/-- The position of the pop is settled. -/
def Loc.settled : Loc Nat Nat → Bool
  | .popData .. | .popClear .. | .popStore .. | .wake .. | .ret _ => true
  | _ => false

/-- The ticket of a thread inside `pthread_cond_wait`. -/
def Loc.ticket : Loc Nat Nat → Option Nat
  | .wait _ (.blocked ticket) _ => some ticket
  | _ => none

/-- On the way to the exchange that takes position `n`, which a weak one may have to repeat. -/
def Loc.taking (n : Nat) : Loc Nat Nat → Bool
  | .popPos .. => true
  | .popSeq _ _ pos | .popTake _ _ pos => pos = n
  | _ => false

/-- Accesses left to that exchange. -/
def Loc.toTake : Loc Nat Nat → Nat
  | .popPos .. => 2
  | .popSeq .. => 1
  | _ => 0

/-- How far a pop is from its result when the frame at position `n` is next and is there. -/
def Loc.toPop (n : Nat) : Loc Nat Nat → Nat
  | .popClosed .. => 40
  | .wait _ w _ =>
    match w with
    | .inc => 39
    | .lock => 38
    -- the depth computed from an old `enqueue_pos` sends the thread to sleep once more
    | .ldDeq enq => if n < enq then 27 else 37
    | .sleep => 36
    | .blocked _ => 35
    | .relock => 34
    | .ldClosed => 29
    | .ldEnq => 28
    | .unlock => 26
    | .dec => 25
  | .popSeq _ _ pos => if pos = n then 12 else 50
  | .popTake _ _ pos => if pos = n then 12 else 20
  | .popPos .. => 12
  | .popData .. => 9
  | .popClear .. => 8
  | .popStore .. => 7
  | .wake w _ =>
    match w with
    | .load => 6
    | .lock => 5
    | .broadcast => 4
    | .unlock => 3
  | .ret _ => 2
  | _ => 0

/-- Accesses left until `wait_mu` is free. -/
def Loc.toUnlock : Loc Nat Nat → Nat
  | .wait _ w _ =>
    match w with
    | .ldClosed => 5
    | .ldEnq => 4
    | .ldDeq _ => 3
    | .sleep => 2
    | .unlock => 1
    | _ => 0
  | .wake .broadcast _ => 2
  | .wake .unlock _ => 1
  | _ => 0

variable {cap n : Nat} {a : Agent} {spurious sc : Bool} {r r' : Ring Nat Agent Nat} {l l' : Loc Nat Nat}

/-- Only the mutex and the condition variable hold up a thread inside a ring function. -/
theorem Ring.step_possible (hact : l.active = true) (hmu : l.wantsMutex = true → r.waitMu = none)
    (hcv : ∀ ticket, l.ticket = some ticket → ticket < r.waitCv) :
    ∃ r' l', r.step cap a false l = some (r', l') := by
  cases l with
  | idle | held pos | ret v => cases hact
  | wake w v =>
    cases w with
    | lock =>
      simp only [Ring.step, Ring.wakeStep, hmu rfl]
      exact ⟨_, _, rfl⟩
    | _ => exact ⟨_, _, rfl⟩
  | wait q w k =>
    cases w with
    | lock | relock =>
      simp only [Ring.step, Ring.waitStep, hmu rfl]
      exact ⟨_, _, rfl⟩
    | blocked ticket => exact ⟨_, _, if_pos (Or.inl (hcv ticket rfl))⟩
    | ldDeq enq =>
      simp only [Ring.step, Ring.waitStep]
      split <;> exact ⟨_, _, rfl⟩
    | _ => exact ⟨_, _, rfl⟩
  | enqCas k spin pos =>
    simp only [Ring.step]
    split <;> exact ⟨_, _, rfl⟩
  | popTake sc spin pos =>
    cases sc with
    | true => exact ⟨_, _, rfl⟩
    | false =>
      simp only [Ring.step]
      split <;> exact ⟨_, _, rfl⟩
  | _ => exact ⟨_, _, rfl⟩

/-- On an open ring the pop does not come to report that it is closed. -/
theorem Ring.step_hopeful (hsp : (RingFn.pop sc).spans l = true) (hhope : l.hopeful = true)
    (hopen : r.closed = false) (hstep : r.step cap a spurious l = some (r', l')) :
    l'.hopeful = true := by
  cases l with
  | wake w v =>
    cases v <;> simp only [RingFn.spans, Bool.false_eq_true] at hsp
    cases w <;> simp only [Ring.step, Ring.wakeStep] at hstep <;> grind [Loc.hopeful]
  | wait q w k =>
    cases w <;> simp only [Ring.step, Ring.waitStep] at hstep <;> cases k <;>
      grind [Loc.hopeful, Resume.loc]
  | popTake sc' spin pos =>
    cases sc' <;> simp only [Ring.step] at hstep <;> grind [Loc.hopeful]
  | popAgain sc' spin pos => cases hhope
  | popPos | popSeq | popData | popClear | popStore | popClosed =>
    simp only [Ring.step, Ring.setCell] at hstep
    grind [Loc.hopeful]
  | ret v | idle | held pos => cases hstep
  | _ => simp [RingFn.spans] at hsp

/-- Each access brings the pop closer to its result, but that a weak exchange may fail. -/
theorem Ring.pop_closer (hsp : (RingFn.pop sc).spans l = true) (hhope : l.hopeful = true)
    (hopen : r.closed = false)
    (hdue : l.settled = false →
      (r.cell cap n).sequence = n + 1 ∧ r.dequeuePos = n ∧ n < r.enqueuePos)
    (hcap : 0 < cap) (hpos : ∀ spin pos, l = .popTake true spin pos → pos = r.dequeuePos)
    (hstep : r.step cap a spurious l = some (r', l')) :
    l'.toPop n < l.toPop n ∨ (l.taking n = true ∧ l'.taking n = true ∧
      (l'.toTake < l.toTake ∨ l.toTake = 0 ∧ spurious = true)) := by
  cases l with
  | popPos sc' spin =>
    obtain ⟨-, hdeq, -⟩ := hdue rfl
    cases hstep
    exact Or.inr ⟨rfl, by simp [Loc.taking, hdeq], Or.inl (by simp [Loc.toTake])⟩
  | popSeq sc' spin pos =>
    obtain ⟨hseq, -⟩ := hdue rfl
    cases hstep
    by_cases hp : pos = n
    · subst hp
      rw [if_pos (by simp [hseq])]
      exact Or.inr ⟨by simp [Loc.taking], by simp [Loc.taking], Or.inl (by simp [Loc.toTake])⟩
    · left
      rw [show (Loc.popSeq sc' spin pos).toPop n = 50 from if_neg hp]
      split
      · simp [Loc.toPop, hp]
      · split <;> simp [Loc.toPop]
  | popTake sc' spin pos =>
    obtain ⟨-, hdeq, -⟩ := hdue rfl
    cases sc' with
    | true =>
      cases hstep
      left
      rw [show (Loc.popTake true spin pos).toPop n = 12 from if_pos ((hpos spin pos rfl).trans hdeq)]
      simp [Loc.toPop]
    | false =>
      simp only [Ring.step, hdeq] at hstep
      by_cases hp : pos = n
      · subst hp
        cases spurious with
        | false =>
          rw [if_pos ⟨rfl, rfl⟩] at hstep
          cases hstep
          exact Or.inl (by simp [Loc.toPop])
        | true =>
          rw [if_neg (by simp)] at hstep
          cases hstep
          exact Or.inr ⟨by simp [Loc.taking], rfl, Or.inr ⟨rfl, rfl⟩⟩
      · rw [if_neg fun h ↦ hp h.1.symm] at hstep
        cases hstep
        exact Or.inl (by simp [Loc.toPop, hp])
  | popData sc' pos | popClear sc' pos out | popStore sc' pos out =>
    cases hstep
    exact Or.inl (by simp [Loc.toPop])
  | popClosed sc' spin pos =>
    cases hstep
    left
    rw [hopen]
    simp only [Bool.false_eq_true, if_false]
    split <;> simp [Loc.toPop]
  | popAgain sc' spin pos => cases hhope
  | wake w v =>
    cases v with
    | popped pos out =>
      left
      cases w <;> simp only [Ring.step, Ring.wakeStep] at hstep <;> grind [Loc.toPop]
    | _ => simp [RingFn.spans] at hsp
  | wait q w k =>
    obtain ⟨rfl, rfl⟩ : q = .data ∧ k = .pop sc := by
      cases q <;> cases k <;> simp_all [RingFn.spans]
    obtain ⟨-, hdeq, hlt⟩ := hdue rfl
    left
    cases w with
    | ldDeq enq =>
      have hwait : WaitFor.mustWait cap .data (Position.depth cap enq r.dequeuePos) = true ↔ enq ≤ n := by
        simp only [WaitFor.mustWait, depth_nat, beq_iff_eq, hdeq]
        split <;> omega
      simp only [Ring.step, Ring.waitStep, hwait] at hstep
      split at hstep <;> cases hstep
      · rw [show (Loc.wait .data (.ldDeq enq) (.pop sc)).toPop n = 37 from if_neg (by omega)]
        simp [Loc.toPop]
      · rw [show (Loc.wait .data (.ldDeq enq) (.pop sc)).toPop n = 27 from if_pos (by omega)]
        simp [Loc.toPop]
    | ldEnq =>
      cases hstep
      simp [Loc.toPop, hlt]
    | _ =>
      simp only [Ring.step, Ring.waitStep] at hstep
      grind [Loc.toPop, Resume.loc]
  | held pos | pubData sp frame pos | pubSeq sp frame pos | pubEnq pos | setClosed v | depthEnq
  | depthDeq enq => simp [RingFn.spans] at hsp
  | enqClosed k spin | enqPos k spin | enqSeq k spin pos | enqCas k spin pos =>
    simp [RingFn.spans] at hsp
  | idle | ret v => cases hstep

theorem Loc.locks_moves (h : l.locks = true) :
    l.active = true ∧ l.wantsMutex = false ∧ l.ticket = none := by
  cases l with
  | wait q w k => cases w <;> first | exact ⟨rfl, rfl, rfl⟩ | cases h
  | wake w v => cases w <;> first | exact ⟨rfl, rfl, rfl⟩ | cases h
  | _ => cases h

/-- Each access of the holder of `wait_mu` gives it back, or brings it closer to that. -/
theorem Ring.unlock_closer (hlocks : l.locks = true) (hstep : r.step cap a spurious l = some (r', l')) :
    r'.waitMu = none ∨ (r'.waitMu = r.waitMu ∧ l'.toUnlock < l.toUnlock) := by
  cases l with
  | wait q w k =>
    cases w with
    | ldClosed | ldEnq =>
      cases hstep
      refine Or.inr ⟨rfl, ?_⟩
      first | (split <;> simp [Loc.toUnlock]) | simp [Loc.toUnlock]
    | ldDeq enq =>
      simp only [Ring.step, Ring.waitStep] at hstep
      split at hstep <;> cases hstep <;> exact Or.inr ⟨rfl, by simp [Loc.toUnlock]⟩
    | sleep | unlock =>
      cases hstep
      exact Or.inl rfl
    | _ => cases hlocks
  | wake w v =>
    cases w with
    | broadcast =>
      cases hstep
      exact Or.inr ⟨rfl, by simp [Loc.toUnlock]⟩
    | unlock =>
      cases hstep
      exact Or.inl rfl
    | _ => cases hlocks
  | _ => cases hlocks

end Pop

/-! ## The mutexes of the pool -/

section Mutexes

variable {c : Config} {s s' : Pool}

theorem Pool.step_spawned (hs : Seated c s) {e : Label} (hst : s.step c e = some s') (i : Nat) :
    (s.ctl.w i).spawned ≤ (s'.ctl.w i).spawned := by
  cases Pool.step_act hs hst with
  | tick | call | shutdown | destroyed | access | api => exact le_rfl
  | shut n x hw hp hn hk =>
    have hf := congrArg Worker.spawned ((ShutPc.next_frame hn).2 i)
    exact hf.ge
  | destroy n x hp hn hfrom hto hframe hk =>
    have hf := congrArg (fun m ↦ (Ctl.w m i).spawned) hframe
    exact hf.ge
  | worker j k x hj hk' hp hn hk =>
    obtain ⟨⟨-, hother⟩, hown⟩ := WorkerPc.next_frame hn
    by_cases hij : i = j
    · subst hij
      have hf := congrArg Worker.spawned hown
      exact hf.ge
    · rw [Pool.moved_ctl, hother i hij]
  | sup x he hp hn hk =>
    rcases SupPc.next_spawned hn i with hsame | ⟨hmore, -⟩
    · exact hsame.ge
    · rw [Pool.moved_ctl, hmore]
      exact Nat.le_succ _
  | helper j x hh hp hn hk =>
    have hf := congrArg (fun m ↦ (Ctl.w m i).spawned) (HelperPc.next_frame hn)
    exact hf.ge

/-- A thread that has not been created is nowhere in a ring. -/
def Pool.Unborn (c : Config) (s : Pool) : Prop := ∀ a, s.exists c a = false → (s.thr a).loc = .idle

theorem Pool.Unborn.init (now : Nat) : (Pool.init c now).Unborn c := fun a _ ↦ by cases a <;> rfl

theorem Pool.Unborn.step (hs : Seated c s) (h : s.Unborn c) {e : Label} (hst : s.step c e = some s') :
    s'.Unborn c := by
  intro a ha
  -- a helper has no business with the rings, and a call is never unborn
  have hold : (∃ i k, a = .worker i k) ∨ a = .sup → s.exists c a = false := by
    rintro (⟨i, k, rfl⟩ | rfl)
    · have hmono := Pool.step_spawned hs hst i
      simp only [Pool.exists, decide_eq_false_iff_not, not_and] at ha ⊢
      exact fun hi ↦ fun hk ↦ ha hi (lt_of_lt_of_le hk hmono)
    · exact ha
  have hstay : s.exists c a = false → (∀ n, a ≠ .api n) → (s'.thr a).loc = .idle := by
    intro hno hapi
    have hmover : ∀ b x, e = .step b x → a ≠ b := by
      rintro b x rfl rfl
      rw [Pool.step_exists hst] at hno
      cases hno
    cases Pool.step_act hs hst with
    | tick => exact h a hno
    | call | shutdown | destroyed =>
      rw [Pool.moved_of_ne (hapi _)]
      exact h a hno
    | access b x =>
      rw [Pool.accessed_of_ne (hmover b x rfl)]
      exact h a hno
    | api | shut | destroy | worker | sup | helper =>
      rw [Pool.moved_of_ne (hmover _ _ rfl)]
      exact h a hno
  cases a with
  | api n => cases ha
  | worker i k => exact hstay (hold (Or.inl ⟨i, k, rfl⟩)) (by simp)
  | sup => exact hstay (hold (Or.inr rfl)) (by simp)
  | helper j =>
    have hs' := hs.step hst
    have hfit := hs'.fits (.helper j)
    have hrun := hs'.runs (.helper j)
    cases hpc : (s'.thr (.helper j)).pc with
    | helper p =>
      rw [hpc] at hfit
      exact hfit
    | _ =>
      rw [hpc] at hrun
      cases hrun

/-- The machinery for waiting is in order on every shard. -/
theorem WakeInv.pool_step (hs : Sound c s) {i : Nat} (h : WakeInv c.capacity (s.shard i)) {e : Label}
    (hst : s.step c e = some s') : WakeInv c.capacity (s'.shard i) := by
  rcases Pool.step_shard hs.seated hst i with heq | hmove
  · rwa [heq]
  · obtain ⟨g, hc, -⟩ := (hs.rings i).laps
    exact h.move hc hmove

theorem WakeInv.pool_init (now i : Nat) : WakeInv c.capacity ((Pool.init c now).shard i) := by
  rw [Pool.init_shard]
  exact .start id

end Mutexes

/-! ## The worker -/

/-- Accesses of a nested `awp_pool_destroy` left. -/
def Nest.left : Nest → Nat
  | .out => 0
  | .markStore => 4
  | .markFrames => 3
  | .persistLoad => 2
  | .persistCas => 1

/-- On the way to the next callback, and not to the end of the thread. -/
def WorkerPc.serving (l : Loc Nat Nat) : WorkerPc → Bool
  | .depth | .exit | .returned => false
  | .pop => l.hopeful
  | _ => true

/-- At a place where it is not for the thread alone to go on: an exchange that may fail, a callback. -/
def WorkerPc.lingers (n : Nat) (l : Loc Nat Nat) : WorkerPc → Bool
  | .pop => l.taking n
  | .process .. | .onError .. => true
  | _ => false

/-- Accesses left until the exchange is tried, or the callback is free to return. -/
def WorkerPc.toTry (l : Loc Nat Nat) : WorkerPc → Nat
  | .pop => l.toTake
  | .process _ _ n | .onError _ _ _ n => n.left
  | _ => 0

/-- How far the thread is from its call of `process` for position `n`. -/
def WorkerPc.toCall (n : Nat) (l : Loc Nat Nat) : WorkerPc → Nat
  | .process .. => 80
  | .countError .. => 75
  | .countPoolError .. => 74
  | .callError .. => 73
  | .onError .. => 62
  | .count | .entry => 61
  | .progress | .stamp => 60
  | .loop => 59
  | .pop =>
    match l with
    | .idle => 58
    | l => l.toPop n
  | .taken .. => 1
  | _ => 0

section Worker

variable {c : Config} {m m' : Ctl} {i n : Nat} {p p' : WorkerPc} {l : Loc Nat Nat} {x : Choice}
  {k : Cmd}

theorem WorkerPc.toCall_pop (h : l ≠ .idle) : WorkerPc.pop.toCall n l = l.toPop n := by
  cases l <;> first | rfl | exact absurd rfl h

/-- A nested `awp_pool_destroy` comes to its end, and makes no callback. -/
theorem Nest.next_left {n : Nest} (h : n ≠ .out) :
    (n.next m).2.left < n.left ∧ (n.next m).1.w = m.w := by
  cases n with
  | out => exact absurd rfl h
  | persistLoad =>
    simp only [Nest.next]
    split <;> simp [Nest.left]
  | _ => simp [Nest.next, Nest.left, Ctl.markQuarantined, Ctl.closeFrames, Ctl.persistAbort]

theorem WorkerPc.next_nested {q slot : Nat} {e : Int} {n : Nest} (h : n ≠ .out) :
    (process q slot n).next c m i l x = some ((n.next m).1, .process q slot (n.next m).2, .stay) ∧
    (onError q slot e n).next c m i l x =
      some ((n.next m).1, .onError q slot e (n.next m).2, .stay) := by
  cases n with
  | out => exact absurd rfl h
  | _ => exact ⟨rfl, rfl⟩

/-- Outside the ring functions the thread can always go on, a callback by returning. -/
theorem WorkerPc.next_possible {sh : Nat} (hserving : p.serving l = true)
    (hfit : (p.place c i).Fits sh l) (hout : l.active = false)
    (hsome : ∀ q, l ≠ .ret (.popped q none)) :
    ∃ x m' p' k sh' l', p.next c m i l x = some (m', p', k) ∧ k.apply sh l = some (sh', l') ∧
      (x = .go ∨ ∃ q slot, p = .process q slot .out ∧ x = .rc 0) := by
  cases p with
  | depth | exit | returned => cases hserving
  | pop =>
    rcases hfit with ⟨rfl, -⟩ | ⟨-, hsp⟩
    · exact ⟨.go, m, _, _, _, _, rfl, rfl, Or.inl rfl⟩
    · cases l with
      | ret v =>
        cases v with
        | popped q out =>
          cases out with
          | none => exact absurd rfl (hsome q)
          | some slot => exact ⟨.go, m, _, _, _, _, rfl, rfl, Or.inl rfl⟩
        | rc n => cases hserving
        | _ => simp [RingFn.spans] at hsp
      | held pos | idle => simp [RingFn.spans] at hsp
      | _ => cases hout
  | process q slot n =>
    cases n with
    | out => exact ⟨.rc 0, _, _, _, _, _, rfl, rfl, Or.inr ⟨q, slot, rfl, rfl⟩⟩
    | _ => exact ⟨.go, _, _, _, _, _, rfl, rfl, Or.inl rfl⟩
  | onError q slot rc n => cases n <;> exact ⟨.go, _, _, _, _, _, rfl, rfl, Or.inl rfl⟩
  | _ => exact ⟨.go, _, _, _, _, _, rfl, rfl, Or.inl rfl⟩

/-- A thread that has not been told to stop stays in its loop. -/
theorem WorkerPc.next_serving {sh sh' : Nat} {l' : Loc Nat Nat} (hserving : p.serving l = true)
    (hfit : (p.place c i).Fits sh l) (htold : (m.w i).stop = false)
    (hn : p.next c m i l x = some (m', p', k)) (hk : k.apply sh l = some (sh', l')) :
    p'.serving l' = true := by
  cases p with
  | depth | exit | returned => cases hserving
  | pop =>
    cases l with
    | idle =>
      cases hn
      cases hk
      rfl
    | ret v =>
      cases v with
      | popped q out => cases out <;> cases hn <;> rfl
      | rc n => cases hserving
      | _ => cases hn
    | _ => cases hn
  | loop =>
    simp only [WorkerPc.next, htold, Bool.false_eq_true, if_false] at hn
    cases hn
    cases hk
    rw [show l = .idle from hfit]
    rfl
  | process q slot nest | onError q slot rc nest =>
    cases nest <;> cases x <;> cases hn <;> first | rfl | (split <;> rfl)
  | countPoolError q slot rc =>
    cases hn
    split <;> rfl
  | _ =>
    cases hn
    rfl

/-- Each step of the worker's own program brings it closer to its next call of `process`, but that a
callback may call `awp_pool_destroy` before it returns. -/
theorem WorkerPc.call_closer {sh sh' : Nat} {l' : Loc Nat Nat} (hserving : p.serving l = true)
    (hfit : (p.place c i).Fits sh l) (htold : (m.w i).stop = false)
    (hsome : ∀ q, l ≠ .ret (.popped q none)) (hn : p.next c m i l x = some (m', p', k))
    (hk : k.apply sh l = some (sh', l')) :
    (∃ q, started (m'.w i).events = started (m.w i).events ++ [q]) ∨
      started (m'.w i).events = started (m.w i).events ∧
        (p'.toCall n l' < p.toCall n l ∨ (p'.toCall n l' = p.toCall n l ∧
          p.lingers n l = true ∧ p'.lingers n l' = true ∧
          (p'.toTry l' < p.toTry l ∨ p.toTry l = 0 ∧ x = .nested))) := by
  cases p with
  | depth | exit | returned => cases hserving
  | pop =>
    right
    rcases hfit with ⟨rfl, -⟩ | ⟨-, hsp⟩
    · cases hn
      cases hk
      exact ⟨rfl, Or.inl (by simp [toCall, ringPop, Loc.toPop])⟩
    · cases l with
      | ret v =>
        cases v with
        | popped q out =>
          cases out with
          | none => exact absurd rfl (hsome q)
          | some slot =>
            cases hn
            exact ⟨rfl, Or.inl (by simp [toCall, Loc.toPop])⟩
        | rc n => cases hserving
        | _ => simp [RingFn.spans] at hsp
      | idle => simp [RingFn.spans] at hsp
      | _ => cases hn
  | loop =>
    have hidle : l = .idle := hfit
    subst hidle
    simp only [WorkerPc.next, htold, Bool.false_eq_true, if_false] at hn
    cases hn
    cases hk
    exact Or.inr ⟨rfl, Or.inl (by simp [toCall])⟩
  | call q slot =>
    cases hn
    exact Or.inl ⟨q, by simp [Ctl.log, started]⟩
  | process q slot nest =>
    right
    by_cases hout : nest = .out
    · subst hout
      cases x with
      | rc rc =>
        cases hn
        refine ⟨by simp [Ctl.log, started], Or.inl ?_⟩
        split <;> simp [toCall]
      | nested =>
        cases hn
        exact ⟨rfl, Or.inr ⟨rfl, rfl, rfl, Or.inr ⟨rfl, rfl⟩⟩⟩
      | _ => cases hn
    · obtain ⟨hleft, hw⟩ := Nest.next_left (m := m) hout
      rw [(next_nested hout (e := 0)).1] at hn
      cases hn
      exact ⟨by rw [hw], Or.inr ⟨rfl, rfl, rfl, Or.inl hleft⟩⟩
  | onError q slot rc nest =>
    right
    by_cases hout : nest = .out
    · subst hout
      cases x with
      | go =>
        cases hn
        exact ⟨by simp [Ctl.log, started], Or.inl (by simp [toCall])⟩
      | nested =>
        cases hn
        exact ⟨rfl, Or.inr ⟨rfl, rfl, rfl, Or.inr ⟨rfl, rfl⟩⟩⟩
      | _ => cases hn
    · obtain ⟨hleft, hw⟩ := Nest.next_left (m := m) hout
      rw [(next_nested hout).2] at hn
      cases hn
      exact ⟨by rw [hw], Or.inr ⟨rfl, rfl, rfl, Or.inl hleft⟩⟩
  | countPoolError q slot rc =>
    cases hn
    refine Or.inr ⟨rfl, Or.inl ?_⟩
    split <;> simp [toCall]
  | callError q slot rc =>
    cases hn
    exact Or.inr ⟨by simp [Ctl.log, started], Or.inl (by simp [toCall])⟩
  | _ =>
    cases hn
    exact Or.inr ⟨by simp, Or.inl (by simp [toCall])⟩

end Worker

/-! ## A shard that is served -/

section Served

variable {c : Config} {s s' : Pool} {i : Nat}

/-- Places at which a party may own a position. -/
def Place.owning : Place → Bool
  | .call _ .claim | .call _ (.commit _) | .hold _ _ => true
  | _ => false

theorem Place.Fits.owning {P : Place} {sh pos : Nat} {l : Loc Nat Nat} (h : P.Fits sh l)
    (hown : l.owns = some pos) : P.owning = true := by
  cases P with
  | out =>
    rw [show l = .idle from h] at hown
    cases hown
  | call j f =>
    rcases h with ⟨rfl, -⟩ | ⟨-, hsp⟩
    · cases hown
    · cases f with
      | claim | commit q => rfl
      | _ =>
        cases l with
        | held q | pubData sp frame q | pubSeq sp frame q => simp [RingFn.spans] at hsp
        | _ => cases hown
  | hold j q => rfl

theorem ShutPc.place_owning (p : ShutPc) : (p.place c).owning = false := by
  cases p <;> first | rfl | (simp only [ShutPc.place]; split <;> rfl)

/-- Only a call of the producer's side comes to own a position. -/
theorem Seated.owner_api (hs : Seated c s) {a : Agent} {pos : Nat}
    (hown : (s.thr a).loc.owns = some pos) : ∃ n, a = .api n ∧ ∃ p, (s.thr a).pc = .api p := by
  have hrun := hs.runs a
  have howning := (hs.fits a).owning hown
  cases hpc : (s.thr a).pc with
  | api p =>
    rw [hpc] at hrun
    cases a <;> simp only [Agent.runs, Bool.false_eq_true] at hrun
    exact ⟨_, rfl, p, rfl⟩
  | shut p =>
    rw [hpc, Pc.place, p.place_owning] at howning
    cases howning
  | destroy p =>
    rw [hpc, Pc.place] at howning
    cases p with
    | shut p =>
      rw [DestroyPc.place, p.place_owning] at howning
      cases howning
    | _ => cases howning
  | worker p =>
    rw [hpc] at hrun howning
    cases a <;> simp only [Agent.runs, Bool.false_eq_true] at hrun
    cases p <;> cases howning
  | sup p =>
    rw [hpc] at howning
    cases p <;> cases howning
  | helper p =>
    rw [hpc] at howning
    cases howning

/-- What is known of every state of a run. -/
structure Orderly (c : Config) (s : Pool) : Prop where
  sound : Sound c s
  unborn : s.Unborn c
  wake : ∀ i, WakeInv c.capacity (s.shard i)
  ledger : ∀ i, ∃ ph, Ledger c s i ph

theorem Orderly.step (h : Orderly c s) {e : Label} (hst : s.step c e = some s') : Orderly c s' where
  sound := h.sound.step hst
  unborn := h.unborn.step h.sound.seated hst
  wake i := (h.wake i).pool_step h.sound hst
  ledger i := (h.ledger i).elim fun _ hl ↦ hl.step h.sound hst

theorem Orderly.run {ok : Pool → Label → Prop} {now : Nat}
    (hrun : Steps (Pool.step c) ok (Pool.init c now) s) : Orderly c s :=
  hrun.invariant (P := Orderly c) (fun _ _ _ h _ hst ↦ h.step hst)
    ⟨.init now, .init now, .pool_init now, fun i ↦ ⟨_, .init now i⟩⟩

/-- The thread that works on shard `i` now. -/
def Pool.server (s : Pool) (i : Nat) : Agent := .worker i (s.ctl.w i).cur

/-- The worker's thread is in its loop, has not been told to stop, and its ring is open. -/
structure Pool.Served (c : Config) (s : Pool) (i : Nat) : Prop where
  worker : i < c.nWorkers
  serves : ∃ p, (s.thr (s.server i)).pc = .worker p ∧ p.serving (s.thr (s.server i)).loc = true
  told : (s.ctl.w i).stop = false
  isOpen : (s.ring i).closed = false

/-- A published position that is next to be popped is there for the taking. -/
theorem Sound.due (h : Sound c s) {f : Nat} (hf : ((s.ring i).dequeuePos, f) ∈ (s.ring i).pushes) :
    ((s.ring i).cell c.capacity.val (s.ring i).dequeuePos).sequence = (s.ring i).dequeuePos + 1 ∧
      (s.ring i).dequeuePos < (s.ring i).enqueuePos := by
  obtain ⟨g, hc, hh⟩ := (h.rings i).laps
  have hcell := hc.cell _ (Nat.mod_lt (s.ring i).dequeuePos c.capacity.pos)
  have hlate := hcell.late
  have hslot := hcell.slot
  have hpushed := hh.pushed _ f hf
  have hring : (s.shard i).ring = s.ring i := rfl
  rw [hring] at hlate
  have hpos : (g ((s.ring i).dequeuePos % c.capacity.val)).pos = (s.ring i).dequeuePos := by
    rcases hpushed with hlt | ⟨he, -⟩
    · have hlap := mod_lap hslot.symm hlt
      omega
    · exact he.symm
  have hframe := (hpushed.resolve_left (by omega)).2
  have hne : (g ((s.ring i).dequeuePos % c.capacity.val)).st ≠ .free := by
    intro hfree
    rw [hfree] at hframe
    cases hframe
  refine ⟨?_, ?_⟩
  · have hseq := hcell.seq
    rw [hring, Lap.seq, hpos] at hseq
    rw [Ring.cell, slot_nat, hseq, if_pos]
    cases hst : (g ((s.ring i).dequeuePos % c.capacity.val)).st <;> rw [hst] at hframe <;>
      first | rfl | cases hframe
  · have hbusy := hcell.busy hne
    rw [hpos] at hbusy
    refine hbusy.resolve_right ?_
    rintro ⟨-, b, hb⟩
    exact h.seated.enqKind_ne b i (Loc.enqKind_of_inEnqSp (Loc.inEnqSp_of_spPos hb))

theorem Pool.Served.stage (h : s.Served c i) : s.crew.stage i (s.ctl.w i).cur ≠ .ended := by
  obtain ⟨p, hp, hserving⟩ := h.serves
  rw [Pool.server] at hp
  simp only [Pool.crew, hp, Pc.stage]
  cases p with
  | returned => cases hserving
  | _ => simp [WorkerPc.stage]

/-- What has been taken off the ring of a shard that is served has been passed to `process`, but for
what the worker has in hand. -/
theorem Pool.Served.dequeued (h : s.Served c i) (ho : Orderly c s)
    (hnone : s.inHand (s.server i) i = none) :
    (s.ring i).dequeuePos = (started (s.ctl.w i).events).length := by
  obtain ⟨ph, hl⟩ := ho.ledger i
  have hundrained : s.ctl.drainedAt i = [] := by
    by_contra hne
    exact h.stage (hl.stopped hne).2
  have hfree : ∀ a, s.inHand a i = none := by
    intro a
    cases ha : s.inHand a i with
    | none => rfl
    | some q =>
      rcases ho.sound.inHand_consumes ha with ⟨rfl, -⟩ | ⟨-, hend⟩
      · rw [Pool.server] at hnone
        rw [hnone] at ha
        cases ha
      · exact absurd hend.2 h.stage
  have hdeq := hl.free hfree
  rw [hundrained] at hdeq
  rw [hdeq, hl.serial.started_eq, List.length_range]
  rfl

/-- The step of a party, by whether it is inside a ring function. -/
theorem Pool.step_own {a : Agent} {x : Choice} (hst : s.step c (.step a x) = some s') :
    s.exists c a = true ∧
    (((s.thr a).loc.active = true ∧ ∃ spurious r l, x.spurious = some spurious ∧
        (s.ring (s.thr a).sh).step c.capacity.val a spurious (s.thr a).loc = some (r, l) ∧
        s' = s.accessed c a r l) ∨
      ((s.thr a).loc.active = false ∧ ∃ m d pc k sh l, s.next c a x = some (m, d, pc, k) ∧
        k.apply (s.thr a).sh (s.thr a).loc = some (sh, l) ∧ s' = s.moved m d a pc sh l)) := by
  rcases Pool.step_cases hst with ⟨t, he, -⟩ | ⟨n, pc, -, hlabel, -⟩ |
    ⟨b, y, spurious, r, l, he, hex, hact, hy, hstep, rfl⟩ |
    ⟨b, y, m, d, pc, k, sh, l, he, hex, hact, hnext, hk, rfl⟩
  · cases he
  · rcases hlabel with ⟨_, _, he, -⟩ | ⟨_, he, -⟩ | ⟨he, -⟩ <;> cases he
  · cases he
    exact ⟨hex, Or.inl ⟨hact, spurious, r, l, hy, hstep, rfl⟩⟩
  · cases he
    exact ⟨hex, Or.inr ⟨hact, m, d, pc, k, sh, l, hnext, hk, rfl⟩⟩

/-- A ring changes by the accesses to it alone. -/
theorem Pool.step_ring {e : Label} (hst : s.step c e = some s') (i : Nat) :
    s'.ring i = s.ring i ∨ ∃ a spurious l, (s.thr a).sh = i ∧
      (s.ring i).step c.capacity.val a spurious (s.thr a).loc = some (s'.ring i, l) := by
  rcases Pool.step_cases hst with ⟨t, -, rfl⟩ | ⟨n, pc, -, -, rfl⟩ |
    ⟨a, x, spurious, r, l, -, -, -, -, hstep, rfl⟩ | ⟨a, x, m, d, pc, k, sh, l, -, -, -, -, -, rfl⟩
  · exact Or.inl rfl
  · exact Or.inl rfl
  · by_cases hsh : (s.thr a).sh = i
    · subst hsh
      exact Or.inr ⟨a, spurious, l, rfl, by simpa only [Function.update_self] using hstep⟩
    · exact Or.inl (Function.update_of_ne (Ne.symm hsh) _ _)
  · exact Or.inl rfl

/-- What has been published stays so. -/
theorem Pool.step_pushes {e : Label} (hst : s.step c e = some s') (i : Nat) :
    (s.ring i).pushes ⊆ (s'.ring i).pushes := by
  rcases Pool.step_ring hst i with hsame | ⟨a, spurious, l, -, hstep⟩
  · rw [hsame]
    exact List.Subset.refl _
  · rcases Ring.step_pushes hstep with hsame | ⟨x, hx⟩
    · rw [hsame]
      exact List.Subset.refl _
    · rw [hx]
      exact List.subset_append_left _ _

theorem Pool.step_waitCv {e : Label} (hst : s.step c e = some s') (i : Nat) :
    (s.ring i).waitCv ≤ (s'.ring i).waitCv := by
  rcases Pool.step_ring hst i with hsame | ⟨a, spurious, l, -, hstep⟩
  · rw [hsame]
  · rcases Ring.step_cv hstep with hsame | ⟨-, hmore⟩
    · exact hsame.ge
    · exact hmore ▸ Nat.le_succ _

/-- A call that is under way, or a thread, moves by its own steps alone. -/
theorem Pool.step_parked {a : Agent} (hpc : (s.thr a).pc ≠ .api .idle) {e : Label}
    (he : ∀ x, e ≠ .step a x) (hst : s.step c e = some s') : s'.thr a = s.thr a := by
  rcases Pool.step_cases hst with ⟨t, -, rfl⟩ | ⟨n, pc, hidle, -, rfl⟩ |
    ⟨b, x, spurious, r, l, rfl, -, -, -, -, rfl⟩ | ⟨b, x, m, d, pc, k, sh, l, rfl, -, -, -, -, rfl⟩
  · rfl
  · refine Function.update_of_ne ?_ _ _
    rintro rfl
    exact hpc hidle
  · exact Function.update_of_ne (fun h ↦ he x (by rw [h])) _ _
  · exact Function.update_of_ne (fun h ↦ he x (by rw [h])) _ _

/-- Of the threads created for a worker, only the last can still move. -/
theorem Orderly.server_eq (ho : Orderly c s) {k : Nat} {p : WorkerPc}
    (hk : k < (s.ctl.w i).spawned) (hp : (s.thr (.worker i k)).pc = .worker p)
    (hlive : p ≠ .returned) : .worker i k = s.server i := by
  have hcur := (ho.sound.custody.post i).current hk (by
    simp only [Pool.crew, hp, Pc.stage]
    cases p <;> first | exact absurd rfl hlive | simp [WorkerPc.stage])
  rw [Pool.server, hcur]

/-- While the shard is served, no other party makes a callback for it or takes its worker's place. -/
theorem Pool.Served.others (h : s.Served c i) (ho : Orderly c s) {e : Label}
    (hst : s.step c e = some s') :
    s'.server i = s.server i ∧
      ((∀ x, e ≠ .step (s.server i) x) → (s'.ctl.w i).events = (s.ctl.w i).events) := by
  have hkeep : ∀ {w' : Worker}, w'.spawned = (s.ctl.w i).spawned →
      Agent.worker i w'.cur = s.server i := fun hw ↦ by rw [Pool.server, Worker.cur, Worker.cur, hw]
  have hpost := (ho.step hst).sound.custody.post i
  cases Pool.step_act ho.sound.seated hst with
  | tick | call | shutdown | destroyed | access | api => exact ⟨rfl, fun _ ↦ rfl⟩
  | shut n x hw hp hn hk =>
    have hf := (ShutPc.next_frame hn).2 i
    have hspawned := congrArg Worker.spawned hf
    have hevents := congrArg Worker.events hf
    exact ⟨hkeep hspawned, fun _ ↦ hevents⟩
  | destroy n x hp hn hfrom hto hframe hk =>
    have hf := congrArg (fun m ↦ Ctl.w m i) hframe
    exact ⟨hkeep (congrArg Worker.spawned hf), fun _ ↦ congrArg Worker.events hf⟩
  | worker j k x hj hk' hp hn hk =>
    obtain ⟨⟨-, hother⟩, hown⟩ := WorkerPc.next_frame hn
    by_cases hij : i = j
    · subst hij
      have hspawned := congrArg Worker.spawned hown
      refine ⟨hkeep hspawned, fun he ↦ absurd (congrArg (Label.step · x) ?_) (he x)⟩
      refine ho.server_eq hk' hp ?_
      rintro rfl
      cases hn
    · rw [Pool.server, Pool.moved_ctl, hother i hij]
      exact ⟨rfl, fun _ ↦ rfl⟩
  | sup x he hp hn hk =>
    have hf := (SupPc.next_frame hn).2 i
    have hevents := congrArg Worker.events hf
    refine ⟨?_, fun _ ↦ hevents⟩
    rcases SupPc.next_spawned hn i with hsame | ⟨hmore, -⟩
    · exact hkeep hsame
    · -- a new thread is created only once the one before it has returned
      have hspawned := (ho.sound.custody.post i).spawned
      have hend := (hpost.past (s.ctl.w i).cur (by
        simp only [Pool.moved_ctl, Worker.cur, hmore]
        omega)).1
      simp only [Pool.crew, Pool.moved_of_ne (a := .sup) (b := .worker i _) (by simp)] at hend
      exact absurd hend h.stage
  | helper j x hh hp hn hk =>
    have hf := congrArg (fun m ↦ Ctl.w m i) (HelperPc.next_frame hn)
    exact ⟨hkeep (congrArg Worker.spawned hf), fun _ ↦ congrArg Worker.events hf⟩

/-- Inside a ring function the worker's thread pops. -/
theorem Pool.Served.popping (h : s.Served c i) (ho : Orderly c s)
    (hact : (s.thr (s.server i)).loc.active = true) :
    (s.thr (s.server i)).pc = .worker .pop ∧ (s.thr (s.server i)).sh = i ∧
      (RingFn.pop c.ringMode.singleConsumer).spans (s.thr (s.server i)).loc = true ∧
      (s.thr (s.server i)).loc.hopeful = true := by
  obtain ⟨p, hp, hserving⟩ := h.serves
  have hfit := ho.sound.seated.fits (s.server i)
  rw [hp] at hfit ⊢
  cases p with
  | pop =>
    rcases hfit with ⟨hidle, -⟩ | ⟨hsh, hsp⟩
    · rw [hidle] at hact
      cases hact
    · exact ⟨rfl, hsh, hsp, hserving⟩
  | depth => cases hserving
  | _ =>
    rw [show (s.thr (s.server i)).loc = .idle from hfit] at hact
    cases hact

/-- A shard is served until its worker is told to stop or its ring is closed. -/
theorem Pool.Served.step (h : s.Served c i) (ho : Orderly c s) {e : Label}
    (hst : s.step c e = some s') (htold : (s'.ctl.w i).stop = false)
    (hopen : (s'.ring i).closed = false) : s'.Served c i := by
  refine ⟨h.worker, ?_, htold, hopen⟩
  rw [(h.others ho hst).1]
  obtain ⟨p, hp, hserving⟩ := h.serves
  have hfit := ho.sound.seated.fits (s.server i)
  by_cases hown : ∃ x, e = .step (s.server i) x
  · obtain ⟨x, rfl⟩ := hown
    rcases Pool.step_own hst with ⟨-, ⟨hact, spurious, r, l, -, hstep, rfl⟩ |
      ⟨hact, m, d, pc, k, sh, l, hnext, hk, rfl⟩⟩
    · obtain ⟨hpop, hsh, hsp, hhope⟩ := h.popping ho hact
      rw [Pool.accessed_self]
      exact ⟨.pop, hpop, Ring.step_hopeful hsp hhope (by rw [hsh]; exact h.isOpen) hstep⟩
    · rw [Pool.moved_self]
      simp only [Pool.server, Pool.next] at hp hnext hserving hfit hk ⊢
      simp only [hp, Option.map_eq_some_iff, Prod.mk.injEq] at hnext
      obtain ⟨⟨m', p', k'⟩, hn, rfl, -, rfl, rfl⟩ := hnext
      rw [hp] at hfit
      exact ⟨p', rfl, WorkerPc.next_serving hserving hfit h.told hn hk⟩
  · rw [Pool.step_parked (by rw [hp]; simp) (not_exists.mp hown) hst]
    exact ⟨p, hp, hserving⟩

theorem Orderly.server_exists (ho : Orderly c s) (h : s.Served c i) :
    s.exists c (s.server i) = true := by
  have hspawned := (ho.sound.custody.post i).spawned
  simp only [Pool.server, Pool.exists, decide_eq_true_eq, Worker.cur]
  exact ⟨h.worker, by omega⟩

theorem Thread.inHand_pop {k : Nat} {t : Thread} (h : t.pc = .worker .pop) :
    t.inHand (.worker i k) i = t.loc.carried := by
  simp [Thread.inHand, h, WorkerPc.inHand]

theorem Loc.carried_none {l : Loc Nat Nat} (h : l.settled = false) : l.carried = none := by
  cases l <;> first | rfl | cases h

theorem Loc.toPop_taking {n : Nat} {l : Loc Nat Nat} (h : l.taking n = true) : l.toPop n = 12 := by
  cases l with
  | popPos => rfl
  | popSeq | popTake => exact if_pos (of_decide_eq_true h)
  | _ => cases h

/-- The next frame of the shard is there, and `process` has not been called for it. -/
def Pool.Due (s : Pool) (i n : Nat) : Prop :=
  (started (s.ctl.w i).events).length = n ∧ ∃ f, (n, f) ∈ (s.ring i).pushes

def Thread.lingers (n : Nat) (t : Thread) : Bool :=
  match t.pc with
  | .worker p => p.lingers n t.loc
  | _ => false

def Thread.toTry (t : Thread) : Nat :=
  match t.pc with
  | .worker p => p.toTry t.loc
  | _ => 0

def Thread.toCall (n : Nat) (t : Thread) : Nat :=
  match t.pc with
  | .worker p => p.toCall n t.loc
  | _ => 0

/-- Until its position is settled, the pop looks for the frame that is due. -/
theorem Pool.Served.sought (h : s.Served c i) (ho : Orderly c s) {n : Nat} (hdue : s.Due i n)
    (hpc : (s.thr (s.server i)).pc = .worker .pop)
    (hsettled : (s.thr (s.server i)).loc.settled = false) :
    ((s.ring i).cell c.capacity.val n).sequence = n + 1 ∧ (s.ring i).dequeuePos = n ∧
      n < (s.ring i).enqueuePos := by
  obtain ⟨hlen, f, hf⟩ := hdue
  have hdeq := (h.dequeued ho ((Thread.inHand_pop hpc).trans (Loc.carried_none hsettled))).trans hlen
  have hnext := ho.sound.due (i := i) (f := f) (by rw [hdeq]; exact hf)
  rw [hdeq] at hnext
  exact ⟨hnext.1, hdeq, hnext.2⟩

/-- Each step of the worker's thread is the call of `process` for the frame that is due or brings
that closer, except where it lingers. -/
theorem Pool.Served.call_closer (h : s.Served c i) (ho : Orderly c s) {n : Nat} (hdue : s.Due i n)
    {x : Choice} (hst : s.step c (.step (s.server i) x) = some s') :
    n < (started (s'.ctl.w i).events).length ∨
      (started (s'.ctl.w i).events).length = n ∧
        ((s'.thr (s.server i)).toCall n < (s.thr (s.server i)).toCall n ∨
          ((s'.thr (s.server i)).toCall n = (s.thr (s.server i)).toCall n ∧
            (s.thr (s.server i)).lingers n = true ∧ (s'.thr (s.server i)).lingers n = true ∧
            ((s'.thr (s.server i)).toTry < (s.thr (s.server i)).toTry ∨
              (s.thr (s.server i)).toTry = 0 ∧ (x = .alt ∨ x = .nested)))) := by
  rcases Pool.step_own hst with ⟨-, ⟨hact, spurious, r, l, hx, hstep, rfl⟩ |
    ⟨hact, m, d, pc, k, sh, l, hnext, hk, rfl⟩⟩
  · obtain ⟨hpc, hsh, hsp, hhope⟩ := h.popping ho hact
    have hcloser := Ring.pop_closer (n := n) hsp hhope h.isOpen (h.sought ho hdue hpc) c.capacity.pos
      (fun spin pos hl ↦ by
        obtain ⟨g, hc, -⟩ := (ho.sound.rings i).laps
        have hown := hc.locs (s.server i)
        have hloc : (s.shard i).loc (s.server i) = .popTake true spin pos := (if_pos hsh).trans hl
        rw [hloc] at hown
        exact hown.2.1 rfl) (hsh ▸ hstep)
    have hne : (s.thr (s.server i)).loc ≠ .idle := by
      intro hidle
      rw [hidle] at hact
      cases hact
    have hne' : l ≠ .idle := by
      rintro rfl
      have hspan := RingFn.spans_step _ hsp hstep
      simp [RingFn.spans] at hspan
    refine Or.inr ⟨hdue.1, ?_⟩
    simp only [Pool.accessed_self, Thread.toCall, Thread.lingers, Thread.toTry, hpc,
      WorkerPc.toCall_pop hne, WorkerPc.toCall_pop hne', WorkerPc.lingers, WorkerPc.toTry]
    refine hcloser.imp id ?_
    rintro ⟨htaking, htaking', htry⟩
    refine ⟨?_, htaking, htaking', htry.imp id ?_⟩
    · rw [Loc.toPop_taking htaking, Loc.toPop_taking htaking']
    · rintro ⟨hzero, rfl⟩
      refine ⟨hzero, Or.inl ?_⟩
      cases x <;> cases hx
      rfl
  · obtain ⟨p, hp, hserving⟩ := h.serves
    have hfit := ho.sound.seated.fits (s.server i)
    have hsome := ho.sound.popped_some (s.server i)
    rw [hp] at hfit
    simp only [Pool.server, Pool.next] at hp hnext
    simp only [hp, Option.map_eq_some_iff, Prod.mk.injEq] at hnext
    obtain ⟨⟨m', p', k'⟩, hn, rfl, -, rfl, rfl⟩ := hnext
    simp only [Pool.moved_self, Pool.moved_ctl, Thread.toCall, Thread.lingers, Thread.toTry,
      Pool.server, hp]
    rcases WorkerPc.call_closer (n := n) hserving hfit h.told hsome hn hk with
      ⟨q, hq⟩ | ⟨hsame, hcloser⟩
    · rw [hq, List.length_append, hdue.1]
      exact Or.inl (Nat.lt_succ_self n)
    · rw [hsame]
      refine Or.inr ⟨hdue.1, hcloser.imp id ?_⟩
      rintro ⟨heq, hling, hling', htry⟩
      refine ⟨heq, hling, hling', htry.imp id ?_⟩
      rintro ⟨hzero, hx⟩
      exact ⟨hzero, Or.inr hx⟩

/-- Outside the ring functions the worker's thread can go on. -/
theorem Pool.Served.call_possible (h : s.Served c i) (ho : Orderly c s)
    (hact : (s.thr (s.server i)).loc.active = false) :
    ∃ x s', s.step c (.step (s.server i) x) = some s' ∧
      (x = .go ∨ ∃ q slot, (s.thr (s.server i)).pc = .worker (.process q slot .out) ∧ x = .rc 0) := by
  obtain ⟨p, hp, hserving⟩ := h.serves
  have hfit := ho.sound.seated.fits (s.server i)
  rw [hp] at hfit
  obtain ⟨x, m, p', k, sh, l, hn, hk, hx⟩ := WorkerPc.next_possible (c := c) (m := s.ctl) hserving hfit
    hact (ho.sound.popped_some (s.server i))
  refine ⟨x, s.moved m s.dat (s.server i) (.worker p') sh l, ?_, hx.imp id ?_⟩
  · have hnext : s.next c (s.server i) x = some (m, s.dat, .worker p', k) := by
      rw [Pool.server] at hp hn ⊢
      simp only [Pool.next, hp]
      rw [hn]
      rfl
    simp only [Pool.step, ho.server_exists h, if_true, hact, Bool.false_eq_true, if_false,
      Pool.advance, hnext, Option.bind_some, hk, Option.map_some, Pool.moved]
  · rintro ⟨q, slot, rfl, rfl⟩
    exact ⟨q, slot, hp, rfl⟩

/-- A position that has not been published is in the hands of a call. -/
theorem Sound.reserved_by (h : Sound c s) {pos : Nat} (hlt : pos < (s.ring i).enqueuePos)
    (hpub : ∀ f, (pos, f) ∉ (s.ring i).pushes) :
    ∃ n p, (s.thr (.api n)).pc = .api p ∧ (s.thr (.api n)).sh = i ∧
      (s.thr (.api n)).loc.owns = some pos := by
  obtain ⟨g, hc, hh⟩ := (h.rings i).laps
  have hcell := hc.cell _ (Nat.mod_lt pos c.capacity.pos)
  have hlap := hcell.lap
  have hslot := hcell.slot
  have hring : (s.shard i).ring = s.ring i := rfl
  rw [hring] at hlap
  have hge : ¬ pos < (g (pos % c.capacity.val)).pos := by
    intro hpast
    obtain ⟨out, hout⟩ := hh.released pos hpast
    obtain ⟨-, f, -, hf⟩ := hh.popped pos out hout
    exact hpub f hf
  have hpos : (g (pos % c.capacity.val)).pos = pos := by
    by_contra hne
    have hfar := mod_lap hslot (show (g (pos % c.capacity.val)).pos < pos by omega)
    omega
  have hst : ∃ a, (g (pos % c.capacity.val)).st = .reserved a := by
    cases hst : (g (pos % c.capacity.val)).st with
    | free =>
      have hle := hcell.free hst
      rw [hring, hpos] at hle
      omega
    | reserved a => exact ⟨a, rfl⟩
    | full f =>
      have hcur := hh.current _ (Nat.mod_lt pos c.capacity.pos) f (by rw [hst]; rfl)
      rw [hpos] at hcur
      exact absurd hcur (hpub f)
    | taken a f =>
      have hcur := hh.current _ (Nat.mod_lt pos c.capacity.pos) f (by rw [hst]; rfl)
      rw [hpos] at hcur
      exact absurd hcur (hpub f)
  obtain ⟨a, ha⟩ := hst
  have howns := hcell.owner a ha
  rw [hpos] at howns
  obtain ⟨hsh, hown⟩ : (s.thr a).sh = i ∧ (s.thr a).loc.owns = some pos := by
    simp only [Pool.shard] at howns
    split at howns
    · exact ⟨‹_›, howns⟩
    · cases howns
  obtain ⟨n, rfl, p, hp⟩ := h.seated.owner_api hown
  exact ⟨n, p, hp, hsh, hown⟩

end Served

end Awp
