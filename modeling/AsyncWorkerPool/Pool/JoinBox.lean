import AsyncWorkerPool.Foundation.Mutex
import AsyncWorkerPool.Pool.Create

/-!
# Join box — `awp_pthread_join_deadline` and its detached helper

Two threads share one box on the heap.  The helper waits in `pthread_join` without a bound, and the
waiter polls the box until the deadline; whoever is the last to need the box frees it.  Each access
of a field, of the mutex or of the condition variable is a step of its own.  Error numbers are
natural numbers, and 0 is success.
-/

open Foundation

namespace Awp

/-- A thread, as far as `pthread_join` is concerned. -/
inductive JoinThread where
  | running
  | ended
  | joined
  | detached
  | cancelled
  deriving DecidableEq

/-- Who is using the box. -/
inductive JoinParty where
  | waiter
  | helper
  deriving DecidableEq

/-- `awp_join_box_t`, as `calloc` leaves it. -/
structure JoinBox where
  target : Nat := 0
  mu : Option JoinParty := none
  done : Bool := false
  rc : Nat := 0
  released : Bool := false
  deriving DecidableEq

/-- Where the thread is that calls `awp_pthread_join_deadline`. -/
inductive JoinWaiter where
  | now
  | calloc
  | setTarget
  | mutexInit
  | condInit
  | attrInit
  | setDetached
  | create
  | lock
  | loadDone
  | poll
  | setReleased
  | unlockReleased
  | unlockPoll
  | sleep
  | loadRc
  | unlockDone (rc : Nat)
  | condDestroy (ret : Int)
  | mutexDestroy (ret : Int)
  | free (ret : Int)
  | returned (ret : Int)
  deriving DecidableEq

/-- Where `awp_join_helper` is. -/
inductive JoinHelper where
  | absent
  | loadTarget
  | join (target : Nat)
  | lock (rc : Nat)
  | setRc (rc : Nat)
  | setDone
  | loadReleased
  | broadcast (freeSelf : Bool)
  | unlock (freeSelf : Bool)
  | condDestroy
  | mutexDestroy
  | free
  | returned
  deriving DecidableEq

/-- A call of `awp_pthread_join_deadline`. -/
structure JoinCall where
  thr : Nat
  deadline : Nat
  clock : Nat
  threads : Nat → JoinThread
  box : JoinBox
  waiter : JoinWaiter
  helper : JoinHelper
  /-- History: how many boxes have been obtained and given back. -/
  boxes : Nat
  freed : Nat
  /-- History: the waiter has read `done` as 1. -/
  observed : Bool

/-- The clock moves on, a thread ends by itself, or a party takes a step; `rc` is the outcome of
what it calls, where that can fail. -/
inductive JoinMove where
  | tick (d : Nat)
  | ends (thread : Nat)
  | waiter (rc : Nat)
  | helper (rc : Nat)
  deriving DecidableEq

def JoinMove.isWaiter : JoinMove → Bool
  | .waiter _ => true
  | _ => false

/-- The threads run until they end. -/
def JoinCall.init (thr deadline clock : Nat) : JoinCall :=
  { thr, deadline, clock, threads := fun _ ↦ .running, box := {}, waiter := .now, helper := .absent,
    boxes := 0, freed := 0, observed := false }

/-- A step of `awp_pthread_join_deadline`. -/
def JoinCall.waiterStep (s : JoinCall) (rc : Nat) : Option JoinCall :=
  match s.waiter with
  | .now => some { s with waiter := if s.clock ≥ s.deadline then .returned 1 else .calloc }
  | .calloc =>
    if rc = 0 then some { s with box := {}, boxes := s.boxes + 1, waiter := .setTarget }
    else some { s with waiter := .returned enomem }
  | .setTarget => some { s with box := { s.box with target := s.thr }, waiter := .mutexInit }
  | .mutexInit => some { s with waiter := if rc = 0 then .condInit else .free enomem }
  | .condInit => some { s with waiter := if rc = 0 then .attrInit else .mutexDestroy enomem }
  | .attrInit => some { s with waiter := if rc = 0 then .setDetached else .condDestroy enomem }
  | .setDetached => some { s with waiter := if rc = 0 then .create else .condDestroy (-rc) }
  | .create =>
    if rc = 0 then some { s with waiter := .lock, helper := .loadTarget }
    else some { s with waiter := .condDestroy (-rc) }
  | .lock =>
    match s.box.mu with
    | none => some { s with box := { s.box with mu := some .waiter }, waiter := .loadDone }
    | some _ => none
  | .loadDone =>
    if s.box.done then some { s with waiter := .loadRc, observed := true }
    else some { s with waiter := .poll }
  | .poll =>
    some { s with waiter := if s.clock ≥ s.deadline then .setReleased else .unlockPoll }
  | .setReleased => some { s with box := { s.box with released := true }, waiter := .unlockReleased }
  | .unlockReleased => some { s with box := { s.box with mu := none }, waiter := .returned 1 }
  | .unlockPoll => some { s with box := { s.box with mu := none }, waiter := .sleep }
  | .sleep => some { s with waiter := .lock }
  | .loadRc => some { s with waiter := .unlockDone s.box.rc }
  | .unlockDone r =>
    some { s with box := { s.box with mu := none }, waiter := .condDestroy (if r = 0 then 0 else -r) }
  | .condDestroy ret => some { s with waiter := .mutexDestroy ret }
  | .mutexDestroy ret => some { s with waiter := .free ret }
  | .free ret => some { s with freed := s.freed + 1, waiter := .returned ret }
  | .returned _ => none

/-- A step of `awp_join_helper`. -/
def JoinCall.helperStep (s : JoinCall) (rc : Nat) : Option JoinCall :=
  match s.helper with
  | .absent => none
  | .loadTarget => some { s with helper := .join s.box.target }
  | .join t =>
    -- without an error, `pthread_join` comes back when the thread has ended
    if rc = 0 then
      if s.threads t = .ended then
        some { s with threads := Function.update s.threads t .joined, helper := .lock 0 }
      else none
    else some { s with helper := .lock rc }
  | .lock r =>
    match s.box.mu with
    | none => some { s with box := { s.box with mu := some .helper }, helper := .setRc r }
    | some _ => none
  | .setRc r => some { s with box := { s.box with rc := r }, helper := .setDone }
  | .setDone => some { s with box := { s.box with done := true }, helper := .loadReleased }
  | .loadReleased => some { s with helper := .broadcast s.box.released }
  | .broadcast freeSelf => some { s with helper := .unlock freeSelf }
  | .unlock freeSelf =>
    some { s with
      box := { s.box with mu := none }, helper := if freeSelf then .condDestroy else .returned }
  | .condDestroy => some { s with helper := .mutexDestroy }
  | .mutexDestroy => some { s with helper := .free }
  | .free => some { s with freed := s.freed + 1, helper := .returned }
  | .returned => none

def JoinCall.step (s : JoinCall) : JoinMove → Option JoinCall
  | .tick d => some { s with clock := s.clock + d }
  | .ends t =>
    if s.threads t = .running then some { s with threads := Function.update s.threads t .ended }
    else none
  | .waiter rc => s.waiterStep rc
  | .helper rc => s.helperStep rc

/-! ## Where the parties are -/

namespace JoinWaiter

/-- The next step reads or writes the box, its mutex or its condition variable, or frees it. -/
def touches : JoinWaiter → Bool
  | now | calloc | attrInit | setDetached | create | poll | sleep | returned _ => false
  | _ => true

def inside : JoinWaiter → Bool
  | loadDone | poll | setReleased | unlockReleased | unlockPoll | loadRc | unlockDone _ => true
  | _ => false

/-- Before the helper, with a box. -/
def setsUp : JoinWaiter → Bool
  | setTarget | mutexInit | condInit | attrInit | setDetached | create => true
  | _ => false

/-- In the loop. -/
def polls : JoinWaiter → Bool
  | lock | loadDone | poll | setReleased | unlockPoll | sleep => true
  | _ => false

/-- `done` has been read as 0 under the lock that is still held. -/
def waits : JoinWaiter → Bool
  | poll | setReleased | unlockReleased | unlockPoll => true
  | _ => false

/-- `done` has been read as 1. -/
def reads : JoinWaiter → Bool
  | loadRc | unlockDone _ => true
  | _ => false

/-- In `awp_join_box_free`. -/
def frees : JoinWaiter → Bool
  | condDestroy _ | mutexDestroy _ | free _ => true
  | _ => false

/-- How many steps are left once `done` is set. -/
def left : JoinWaiter → Nat
  | sleep => 8
  | lock => 7
  | loadDone => 6
  | loadRc => 5
  | unlockDone _ => 4
  | condDestroy _ => 3
  | mutexDestroy _ => 2
  | free _ => 1
  | _ => 0

end JoinWaiter

namespace JoinHelper

def touches : JoinHelper → Bool
  | absent | join _ | returned => false
  | _ => true

def inside : JoinHelper → Bool
  | setRc _ | setDone | loadReleased | broadcast _ | unlock _ => true
  | _ => false

/-- Up to the lock. -/
def early : JoinHelper → Bool
  | loadTarget | join _ | lock _ => true
  | _ => false

/-- `done` is not set yet. -/
def unset : JoinHelper → Bool
  | loadTarget | join _ | lock _ | setRc _ | setDone => true
  | _ => false

/-- In `awp_join_box_free`. -/
def frees : JoinHelper → Bool
  | condDestroy | mutexDestroy | free => true
  | _ => false

end JoinHelper

def JoinCall.inside (s : JoinCall) : JoinParty → Bool
  | .waiter => s.waiter.inside
  | .helper => s.helper.inside

/-! ## Who owns the box -/

/-- The life of the box.  The waiter sets it up; both share it; then either the waiter hands it to
the helper for good, or the helper has left and the waiter keeps it. -/
inductive JoinCall.Phase (s : JoinCall) : Prop where
  | fresh (hw : s.waiter = .now ∨ s.waiter = .calloc) (hh : s.helper = .absent) (hbox : s.box = {})
      (hcount : s.boxes = 0 ∧ s.freed = 0)
  | unused (hw : ∃ ret, s.waiter = .returned ret) (hh : s.helper = .absent)
      (hcount : s.boxes = 0 ∧ s.freed = 0)
  | setup (hw : s.waiter.setsUp = true) (hh : s.helper = .absent) (hdone : s.box.done = false)
      (hreleased : s.box.released = false) (hcount : s.boxes = 1 ∧ s.freed = 0)
  | undo (hw : s.waiter.frees = true) (hh : s.helper = .absent) (hcount : s.boxes = 1 ∧ s.freed = 0)
  | undone (hw : ∃ ret, s.waiter = .returned ret) (hh : s.helper = .absent)
      (hcount : s.boxes = 1 ∧ s.freed = 1)
  | shared (hw : s.waiter.polls = true) (hh : s.helper.early = true ∨ s.helper.inside = true)
      (hdone : s.box.done = !s.helper.unset) (hreleased : s.box.released = false)
      (hfree : s.helper ≠ .broadcast true ∧ s.helper ≠ .unlock true)
      (hcount : s.boxes = 1 ∧ s.freed = 0)
  | handed (hw : s.waiter = .unlockReleased ∧ s.helper.early = true ∨ s.waiter = .returned 1)
      (hh : s.helper.early = true ∨ s.helper.inside = true ∨ s.helper.frees = true)
      (hreleased : s.box.released = true)
      (hfree : s.helper ≠ .broadcast false ∧ s.helper ≠ .unlock false)
      (hcount : s.boxes = 1 ∧ s.freed = 0)
  | kept (hw : s.waiter.polls = true ∨ s.waiter.reads = true ∨ s.waiter.frees = true)
      (hh : s.helper = .returned) (hdone : s.box.done = true) (hreleased : s.box.released = false)
      (hcount : s.boxes = 1 ∧ s.freed = 0)
  | ended (hw : ∃ ret, s.waiter = .returned ret) (hh : s.helper = .returned)
      (hcount : s.boxes = 1 ∧ s.freed = 1)

/-- The invariant of a call. -/
structure JoinCall.Owned (s : JoinCall) : Prop where
  phase : s.Phase
  guards : Guards s.box.mu s.inside
  /-- What the waiter has read of `done` under the lock that it still holds. -/
  waits : s.waiter.waits = true → s.box.done = false

section Waiter

variable {s s' : JoinCall} {rc : Nat}

theorem JoinCall.Owned.sole (h : s.Owned) (hw : s.waiter.inside = true) :
    s.helper.inside = false := by
  cases hh : s.helper.inside with
  | false => rfl
  | true =>
    have hin : s.inside .waiter = true := hw
    have hin' : s.inside .helper = true := hh
    cases h.guards.sole hin hin'

/-- While the waiter is inside, a helper that shares the box is on its way to the lock. -/
theorem JoinCall.Owned.early (h : s.Owned) (hw : s.waiter.inside = true)
    (hh : s.helper.early = true ∨ s.helper.inside = true) : s.helper.early = true := by
  rcases hh with hh | hh
  · exact hh
  · rw [h.sole hw] at hh
    cases hh

theorem JoinHelper.early_spec {p : JoinHelper} (h : p.early = true) :
    p.unset = true ∧ ∀ b, p ≠ .broadcast b ∧ p ≠ .unlock b := by
  cases p with
  | loadTarget | join _ | lock _ => exact ⟨rfl, fun b ↦ ⟨by simp, by simp⟩⟩
  | _ => cases h

/-- A call of the setup goes on with the next one, or undoes what has been done. -/
theorem JoinCall.Phase.setup_or {ok fail : JoinWaiter} (hok : ok.setsUp = true)
    (hfail : fail.frees = true) (hh : s.helper = .absent) (hdone : s.box.done = false)
    (hreleased : s.box.released = false) (hcount : s.boxes = 1 ∧ s.freed = 0) :
    ({ s with waiter := if rc = 0 then ok else fail } : JoinCall).Phase := by
  by_cases hrc : rc = 0
  · exact .setup (by simp [hrc, hok]) hh hdone hreleased hcount
  · exact .undo (by simp [hrc, hfail]) hh hcount

theorem JoinCall.Phase.waiter_setup (hw : s.waiter.setsUp = true) (hh : s.helper = .absent)
    (hdone : s.box.done = false) (hreleased : s.box.released = false)
    (hcount : s.boxes = 1 ∧ s.freed = 0) (hst : s.waiterStep rc = some s') : s'.Phase := by
  cases hpc : s.waiter with
  | setTarget =>
    simp only [JoinCall.waiterStep, hpc] at hst
    cases hst
    exact .setup rfl hh hdone hreleased hcount
  | mutexInit | condInit | attrInit | setDetached =>
    simp only [JoinCall.waiterStep, hpc] at hst
    cases hst
    exact .setup_or rfl rfl hh hdone hreleased hcount
  | create =>
    simp only [JoinCall.waiterStep, hpc] at hst
    split at hst
    · cases hst
      exact .shared rfl (.inl rfl) hdone hreleased (by simp) hcount
    · cases hst
      exact .undo rfl hh hcount
  | _ => rw [hpc] at hw; cases hw

/-- The cleanup ends with a `free`. -/
theorem JoinCall.waiterStep_frees (hw : s.waiter.frees = true) (hst : s.waiterStep rc = some s') :
    (s'.waiter.frees = true ∧ s' = { s with waiter := s'.waiter }) ∨
      ∃ ret, s' = { s with waiter := .returned ret, freed := s.freed + 1 } := by
  cases hpc : s.waiter with
  | condDestroy ret | mutexDestroy ret =>
    simp only [JoinCall.waiterStep, hpc] at hst
    cases hst
    exact .inl ⟨rfl, rfl⟩
  | free ret =>
    simp only [JoinCall.waiterStep, hpc] at hst
    cases hst
    exact .inr ⟨ret, rfl⟩
  | _ => rw [hpc] at hw; cases hw

/-- The waiter in the loop: it goes round, hands the box over, or learns that the helper has left. -/
theorem JoinCall.Owned.waiter_polls (h : s.Owned) (hw : s.waiter.polls = true)
    (hst : s.waiterStep rc = some s') :
    (∃ w mu, w.polls = true ∧ s' = { s with box := { s.box with mu }, waiter := w }) ∨
      (s.waiter.inside = true ∧ s.box.done = false ∧
        s' = { s with box := { s.box with released := true }, waiter := .unlockReleased }) ∨
      (s.waiter.inside = true ∧ s.box.done = true ∧
        s' = { s with waiter := .loadRc, observed := true }) := by
  cases hpc : s.waiter with
  | lock =>
    simp only [JoinCall.waiterStep, hpc] at hst
    split at hst
    · cases hst
      exact .inl ⟨_, _, rfl, rfl⟩
    · cases hst
  | loadDone =>
    simp only [JoinCall.waiterStep, hpc] at hst
    split at hst
    · rename_i hdone
      cases hst
      exact .inr (.inr ⟨rfl, hdone, rfl⟩)
    · cases hst
      exact .inl ⟨_, _, rfl, rfl⟩
  | poll =>
    simp only [JoinCall.waiterStep, hpc] at hst
    cases hst
    refine .inl ⟨_, _, ?_, rfl⟩
    split
    · rfl
    · rfl
  | setReleased =>
    simp only [JoinCall.waiterStep, hpc] at hst
    cases hst
    exact .inr (.inl ⟨rfl, h.waits (by rw [hpc]; rfl), rfl⟩)
  | unlockPoll | sleep =>
    simp only [JoinCall.waiterStep, hpc] at hst
    cases hst
    exact .inl ⟨_, _, rfl, rfl⟩
  | _ => rw [hpc] at hw; cases hw

theorem JoinCall.waiterStep_returned {ret : Int} (hw : s.waiter = .returned ret) :
    s.waiterStep rc = none := by
  simp only [JoinCall.waiterStep, hw]

theorem JoinCall.Owned.waiter_phase (h : s.Owned) (hst : s.waiterStep rc = some s') : s'.Phase := by
  cases h.phase with
  | fresh hw hh hbox hcount =>
    rcases hw with hw | hw
    · simp only [JoinCall.waiterStep, hw] at hst
      cases hst
      by_cases hlate : s.clock ≥ s.deadline
      · exact .unused ⟨1, if_pos hlate⟩ hh hcount
      · exact .fresh (.inr (if_neg hlate)) hh hbox hcount
    · simp only [JoinCall.waiterStep, hw] at hst
      split at hst
      · cases hst
        exact .setup rfl hh rfl rfl ⟨by rw [hcount.1], hcount.2⟩
      · cases hst
        exact .unused ⟨_, rfl⟩ hh hcount
  | setup hw hh hdone hreleased hcount => exact .waiter_setup hw hh hdone hreleased hcount hst
  | undo hw hh hcount =>
    rcases JoinCall.waiterStep_frees hw hst with ⟨hw', he⟩ | ⟨ret, rfl⟩
    · rw [he]
      exact .undo hw' hh hcount
    · exact .undone ⟨ret, rfl⟩ hh ⟨hcount.1, by rw [hcount.2]⟩
  | shared hw hh hdone hreleased hfree hcount =>
    rcases h.waiter_polls hw hst with ⟨w, mu, hw', rfl⟩ | ⟨hin, -, rfl⟩ | ⟨hin, hset, rfl⟩
    · exact .shared hw' hh hdone hreleased hfree hcount
    · have hearly := h.early hin hh
      exact .handed (.inl ⟨rfl, hearly⟩) (.inl hearly) rfl
        ((JoinHelper.early_spec hearly).2 false) hcount
    · -- the helper sets `done` inside, and leaves the shared phase with the lock
      rw [hset, (JoinHelper.early_spec (h.early hin hh)).1] at hdone
      cases hdone
  | handed hw hh hreleased hfree hcount =>
    rcases hw with ⟨hw, -⟩ | hw
    · simp only [JoinCall.waiterStep, hw] at hst
      cases hst
      exact .handed (.inr rfl) hh hreleased hfree hcount
    · cases (JoinCall.waiterStep_returned hw).symm.trans hst
  | kept hw hh hdone hreleased hcount =>
    rcases hw with hw | hw | hw
    · rcases h.waiter_polls hw hst with ⟨w, mu, hw', rfl⟩ | ⟨-, hunset, rfl⟩ | ⟨-, -, rfl⟩
      · exact .kept (.inl hw') hh hdone hreleased hcount
      · cases hdone.symm.trans hunset
      · exact .kept (.inr (.inl rfl)) hh hdone hreleased hcount
    · cases hpc : s.waiter with
      | loadRc =>
        simp only [JoinCall.waiterStep, hpc] at hst
        cases hst
        exact .kept (.inr (.inl rfl)) hh hdone hreleased hcount
      | unlockDone r =>
        simp only [JoinCall.waiterStep, hpc] at hst
        cases hst
        exact .kept (.inr (.inr rfl)) hh hdone hreleased hcount
      | _ => rw [hpc] at hw; cases hw
    · rcases JoinCall.waiterStep_frees hw hst with ⟨hw', he⟩ | ⟨ret, rfl⟩
      · rw [he]
        exact .kept (.inr (.inr hw')) hh hdone hreleased hcount
      · exact .ended ⟨ret, rfl⟩ hh ⟨hcount.1, by rw [hcount.2]⟩
  | unused hw | undone hw | ended hw =>
    obtain ⟨ret, hw⟩ := hw
    cases (JoinCall.waiterStep_returned hw).symm.trans hst

theorem JoinCall.Owned.fresh_of (h : s.Owned) (hw : s.waiter = .now ∨ s.waiter = .calloc) :
    s.box = {} ∧ s.boxes = 0 := by
  cases h.phase with
  | fresh _ _ hbox hcount => exact ⟨hbox, hcount.1⟩
  | unused hw' | undone hw' | ended hw' =>
    obtain ⟨ret, hw'⟩ := hw'
    rcases hw with hw | hw
    · cases hw.symm.trans hw'
    · cases hw.symm.trans hw'
  | setup hw' | undo hw' | shared hw' =>
    rcases hw with hw | hw
    · rw [hw] at hw'; cases hw'
    · rw [hw] at hw'; cases hw'
  | handed hw' =>
    rcases hw with hw | hw <;> rw [hw] at hw' <;> simp at hw'
  | kept hw' =>
    rcases hw with hw | hw <;> rw [hw] at hw' <;>
      simp [JoinWaiter.polls, JoinWaiter.reads, JoinWaiter.frees] at hw'

/-- What the waiter does to the lock. -/
theorem JoinCall.Owned.waiter_turn (h : s.Owned) (hst : s.waiterStep rc = some s') :
    Turn .waiter s.box.mu s'.box.mu s.waiter.inside s'.waiter.inside := by
  cases hpc : s.waiter with
  | now | poll =>
    simp only [JoinCall.waiterStep, hpc] at hst
    cases hst
    dsimp only
    split
    · exact .keep
    · exact .keep
  | calloc =>
    have hmu : s.box.mu = none := by rw [(h.fresh_of (.inr hpc)).1]
    simp only [JoinCall.waiterStep, hpc] at hst
    split at hst
    · cases hst
      rw [hmu]
      exact .keep
    · cases hst
      exact .keep
  | mutexInit | condInit | attrInit | setDetached =>
    simp only [JoinCall.waiterStep, hpc] at hst
    cases hst
    dsimp only
    split
    · exact .keep
    · exact .keep
  | create | loadDone =>
    simp only [JoinCall.waiterStep, hpc] at hst
    split at hst
    · cases hst
      exact .keep
    · cases hst
      exact .keep
  | lock =>
    simp only [JoinCall.waiterStep, hpc] at hst
    split at hst
    · rename_i hmu
      cases hst
      rw [hmu]
      exact .acquire
    · cases hst
  | unlockReleased | unlockPoll | unlockDone _ =>
    simp only [JoinCall.waiterStep, hpc] at hst
    cases hst
    exact .release
  | returned _ => cases (JoinCall.waiterStep_returned hpc).symm.trans hst
  | setTarget | setReleased | sleep | loadRc | condDestroy _ | mutexDestroy _ | free _ =>
    simp only [JoinCall.waiterStep, hpc] at hst
    cases hst
    exact .keep

/-- The only step of the waiter that moves the helper is the one that creates it. -/
theorem JoinCall.waiterStep_spec (hst : s.waiterStep rc = some s') :
    s'.thr = s.thr ∧ s'.deadline = s.deadline ∧
      (s'.helper = s.helper ∨ s.waiter = .create ∧ s'.helper = .loadTarget) := by
  cases hpc : s.waiter with
  | create =>
    simp only [JoinCall.waiterStep, hpc] at hst
    split at hst
    · cases hst
      exact ⟨rfl, rfl, .inr ⟨rfl, rfl⟩⟩
    · cases hst
      exact ⟨rfl, rfl, .inl rfl⟩
  | calloc | loadDone =>
    simp only [JoinCall.waiterStep, hpc] at hst
    split at hst
    · cases hst
      exact ⟨rfl, rfl, .inl rfl⟩
    · cases hst
      exact ⟨rfl, rfl, .inl rfl⟩
  | lock =>
    simp only [JoinCall.waiterStep, hpc] at hst
    split at hst
    · cases hst
      exact ⟨rfl, rfl, .inl rfl⟩
    · cases hst
  | returned _ => cases (JoinCall.waiterStep_returned hpc).symm.trans hst
  | _ =>
    simp only [JoinCall.waiterStep, hpc] at hst
    cases hst
    exact ⟨rfl, rfl, .inl rfl⟩

theorem JoinCall.Owned.absent_of (h : s.Owned) (hw : s.waiter = .create) : s.helper = .absent := by
  cases h.phase with
  | setup _ hh => exact hh
  | _ => simp_all [JoinWaiter.frees, JoinWaiter.polls, JoinWaiter.reads]

theorem JoinCall.Owned.handed_of (h : s.Owned) (hw : s.waiter = .unlockReleased) :
    s.box.released = true ∧ s.helper ≠ .absent := by
  cases h.phase with
  | handed _ hh hreleased => exact ⟨hreleased, fun he ↦ by simp [he, JoinHelper.early, JoinHelper.inside, JoinHelper.frees] at hh⟩
  | _ => simp_all [JoinWaiter.setsUp, JoinWaiter.frees, JoinWaiter.polls, JoinWaiter.reads]

theorem JoinCall.Owned.waiter_waits (h : s.Owned) (hst : s.waiterStep rc = some s')
    (hw : s'.waiter.waits = true) : s'.box.done = false := by
  cases hpc : s.waiter with
  | loadDone =>
    simp only [JoinCall.waiterStep, hpc] at hst
    split at hst
    · cases hst
      cases hw
    · rename_i hdone
      cases hst
      exact Bool.eq_false_iff.mpr hdone
  | poll | setReleased =>
    have hdone := h.waits (by rw [hpc]; rfl)
    simp only [JoinCall.waiterStep, hpc] at hst
    cases hst
    exact hdone
  | returned _ => cases (JoinCall.waiterStep_returned hpc).symm.trans hst
  | calloc | create =>
    simp only [JoinCall.waiterStep, hpc] at hst
    split at hst
    · cases hst
      cases hw
    · cases hst
      cases hw
  | lock =>
    simp only [JoinCall.waiterStep, hpc] at hst
    split at hst
    · cases hst
      cases hw
    · cases hst
  | now | mutexInit | condInit | attrInit | setDetached =>
    simp only [JoinCall.waiterStep, hpc] at hst
    cases hst
    dsimp only at hw
    split at hw
    · cases hw
    · cases hw
  | _ =>
    simp only [JoinCall.waiterStep, hpc] at hst
    cases hst
    cases hw

theorem JoinCall.Owned.waiter (h : s.Owned) (hst : s.waiterStep rc = some s') : s'.Owned := by
  refine ⟨h.waiter_phase hst, h.guards.turn (h.waiter_turn hst) fun b hb ↦ ?_, h.waiter_waits hst⟩
  cases b with
  | waiter => exact absurd rfl hb
  | helper =>
    show s'.helper.inside = s.helper.inside
    rcases (JoinCall.waiterStep_spec hst).2.2 with he | ⟨hpc, he⟩
    · rw [he]
    · rw [he, h.absent_of hpc]
      rfl

end Waiter

section Helper

variable {s s' : JoinCall} {rc : Nat}

/-- The helper that shares the box reaches its end with `released` unset. -/
theorem JoinCall.Phase.helper_shared (hw : s.waiter.polls = true)
    (hh : s.helper.early = true ∨ s.helper.inside = true) (hdone : s.box.done = !s.helper.unset)
    (hreleased : s.box.released = false)
    (hfree : s.helper ≠ .broadcast true ∧ s.helper ≠ .unlock true)
    (hcount : s.boxes = 1 ∧ s.freed = 0) (hst : s.helperStep rc = some s') : s'.Phase := by
  cases hpc : s.helper with
  | loadTarget =>
    simp only [JoinCall.helperStep, hpc] at hst hdone
    cases hst
    exact .shared hw (.inl rfl) hdone hreleased (by simp) hcount
  | join t =>
    simp only [JoinCall.helperStep, hpc] at hst hdone
    split at hst
    · split at hst
      · cases hst
        exact .shared hw (.inl rfl) hdone hreleased (by simp) hcount
      · cases hst
    · cases hst
      exact .shared hw (.inl rfl) hdone hreleased (by simp) hcount
  | lock r =>
    simp only [JoinCall.helperStep, hpc] at hst hdone
    split at hst
    · cases hst
      exact .shared hw (.inr rfl) hdone hreleased (by simp) hcount
    · cases hst
  | setRc r =>
    simp only [JoinCall.helperStep, hpc] at hst hdone
    cases hst
    exact .shared hw (.inr rfl) hdone hreleased (by simp) hcount
  | setDone =>
    simp only [JoinCall.helperStep, hpc] at hst
    cases hst
    exact .shared hw (.inr rfl) rfl hreleased (by simp) hcount
  | loadReleased =>
    simp only [JoinCall.helperStep, hpc] at hst hdone
    cases hst
    exact .shared hw (.inr rfl) hdone hreleased (by simp [hreleased]) hcount
  | broadcast b =>
    simp only [JoinCall.helperStep, hpc] at hst hdone hfree
    cases hst
    refine .shared hw (.inr rfl) hdone hreleased ⟨by simp, fun he ↦ ?_⟩ hcount
    cases he
    exact hfree.1 rfl
  | unlock b =>
    simp only [JoinCall.helperStep, hpc] at hst hdone hfree
    cases b with
    | false =>
      cases hst
      exact .kept (.inl hw) rfl hdone hreleased hcount
    | true => exact absurd rfl hfree.2
  | absent | condDestroy | mutexDestroy | free | returned =>
    rw [hpc] at hh
    rcases hh with hh | hh
    · cases hh
    · cases hh

/-- The helper that the box was handed to frees it at the end. -/
theorem JoinCall.Owned.helper_handed (h : s.Owned)
    (hw : s.waiter = .unlockReleased ∧ s.helper.early = true ∨ s.waiter = .returned 1)
    (hh : s.helper.early = true ∨ s.helper.inside = true ∨ s.helper.frees = true)
    (hreleased : s.box.released = true)
    (hfree : s.helper ≠ .broadcast false ∧ s.helper ≠ .unlock false)
    (hcount : s.boxes = 1 ∧ s.freed = 0) (hst : s.helperStep rc = some s') : s'.Phase := by
  -- past the lock the waiter has gone
  have hgone : s.helper.early = false → s.waiter = .returned 1 := fun hno ↦ by
    rcases hw with ⟨-, hyes⟩ | hw
    · cases hno.symm.trans hyes
    · exact hw
  cases hpc : s.helper with
  | loadTarget =>
    simp only [JoinCall.helperStep, hpc] at hst
    cases hst
    exact .handed (hw.imp (⟨·.1, rfl⟩) id) (.inl rfl) hreleased (by simp) hcount
  | join t =>
    simp only [JoinCall.helperStep, hpc] at hst
    split at hst
    · split at hst
      · cases hst
        exact .handed (hw.imp (⟨·.1, rfl⟩) id) (.inl rfl) hreleased (by simp) hcount
      · cases hst
    · cases hst
      exact .handed (hw.imp (⟨·.1, rfl⟩) id) (.inl rfl) hreleased (by simp) hcount
  | lock r =>
    simp only [JoinCall.helperStep, hpc] at hst
    split at hst
    · rename_i hmu
      cases hst
      refine .handed (.inr ?_) (.inr (.inl rfl)) hreleased (by simp) hcount
      rcases hw with ⟨hw, -⟩ | hw
      · have hin : s.inside .waiter = true := by rw [JoinCall.inside, hw]; rfl
        cases hmu.symm.trans ((h.guards .waiter).mp hin)
      · exact hw
    · cases hst
  | setRc _ | setDone =>
    have hw := hgone (by rw [hpc]; rfl)
    simp only [JoinCall.helperStep, hpc] at hst
    cases hst
    exact .handed (.inr hw) (.inr (.inl rfl)) hreleased (by simp) hcount
  | loadReleased =>
    have hw := hgone (by rw [hpc]; rfl)
    simp only [JoinCall.helperStep, hpc] at hst
    cases hst
    exact .handed (.inr hw) (.inr (.inl rfl)) hreleased (by simp [hreleased]) hcount
  | broadcast b =>
    have hw := hgone (by rw [hpc]; rfl)
    simp only [JoinCall.helperStep, hpc] at hst hfree
    cases hst
    refine .handed (.inr hw) (.inr (.inl rfl)) hreleased ⟨by simp, fun he ↦ ?_⟩ hcount
    cases he
    exact hfree.1 rfl
  | unlock b =>
    have hw := hgone (by rw [hpc]; rfl)
    simp only [JoinCall.helperStep, hpc] at hst hfree
    cases b with
    | false => exact absurd rfl hfree.2
    | true =>
      cases hst
      exact .handed (.inr hw) (.inr (.inr rfl)) hreleased (by simp) hcount
  | condDestroy | mutexDestroy =>
    have hw := hgone (by rw [hpc]; rfl)
    simp only [JoinCall.helperStep, hpc] at hst
    cases hst
    exact .handed (.inr hw) (.inr (.inr rfl)) hreleased (by simp) hcount
  | free =>
    have hw := hgone (by rw [hpc]; rfl)
    simp only [JoinCall.helperStep, hpc] at hst
    cases hst
    exact .ended ⟨1, hw⟩ rfl ⟨hcount.1, by rw [hcount.2]⟩
  | absent | returned =>
    rw [hpc] at hh
    rcases hh with hh | hh | hh
    · cases hh
    · cases hh
    · cases hh

/-- The helper moves alone, and sets `done` inside only. -/
theorem JoinCall.helperStep_spec (hst : s.helperStep rc = some s') :
    s'.thr = s.thr ∧ s'.deadline = s.deadline ∧ s'.waiter = s.waiter ∧
      (s'.box.done = s.box.done ∨ s.helper.inside = true) ∧
        Turn .helper s.box.mu s'.box.mu s.helper.inside s'.helper.inside := by
  cases hpc : s.helper with
  | absent | returned =>
    simp only [JoinCall.helperStep, hpc] at hst
    cases hst
  | join t =>
    simp only [JoinCall.helperStep, hpc] at hst
    split at hst
    · split at hst
      · cases hst
        exact ⟨rfl, rfl, rfl, .inl rfl, .keep⟩
      · cases hst
    · cases hst
      exact ⟨rfl, rfl, rfl, .inl rfl, .keep⟩
  | lock r =>
    simp only [JoinCall.helperStep, hpc] at hst
    split at hst
    · rename_i hmu
      cases hst
      rw [hmu]
      exact ⟨rfl, rfl, rfl, .inl rfl, .acquire⟩
    · cases hst
  | setDone =>
    simp only [JoinCall.helperStep, hpc] at hst
    cases hst
    exact ⟨rfl, rfl, rfl, .inr rfl, .keep⟩
  | unlock b =>
    simp only [JoinCall.helperStep, hpc] at hst
    cases hst
    cases b with
    | false => exact ⟨rfl, rfl, rfl, .inl rfl, .release⟩
    | true => exact ⟨rfl, rfl, rfl, .inl rfl, .release⟩
  | _ =>
    simp only [JoinCall.helperStep, hpc] at hst
    cases hst
    exact ⟨rfl, rfl, rfl, .inl rfl, .keep⟩

theorem JoinWaiter.inside_of_waits {p : JoinWaiter} (h : p.waits = true) : p.inside = true := by
  cases p with
  | poll | setReleased | unlockReleased | unlockPoll => rfl
  | _ => cases h

theorem JoinCall.Owned.helper (h : s.Owned) (hst : s.helperStep rc = some s') : s'.Owned := by
  obtain ⟨-, -, hwaiter, hdone, hturn⟩ := JoinCall.helperStep_spec hst
  refine ⟨?_, h.guards.turn hturn fun b hb ↦ ?_, fun hw ↦ ?_⟩
  · cases h.phase with
    | shared hw hh hdone hreleased hfree hcount =>
      exact .helper_shared hw hh hdone hreleased hfree hcount hst
    | handed hw hh hreleased hfree hcount =>
      exact h.helper_handed hw hh hreleased hfree hcount hst
    | fresh _ hh | unused _ hh | setup _ hh | undo _ hh | undone _ hh | kept _ hh | ended _ hh =>
      -- no helper yet, or no longer
      simp only [JoinCall.helperStep, hh] at hst
      cases hst
  · cases b with
    | waiter => exact congrArg JoinWaiter.inside hwaiter
    | helper => exact absurd rfl hb
  · rw [hwaiter] at hw
    rcases hdone with he | hin
    · rw [he]
      exact h.waits hw
    · rw [h.sole (JoinWaiter.inside_of_waits hw)] at hin
      cases hin

end Helper

theorem JoinCall.Owned.init (thr deadline clock : Nat) : (JoinCall.init thr deadline clock).Owned :=
  ⟨.fresh (.inl rfl) rfl rfl ⟨rfl, rfl⟩, .init fun a ↦ by cases a <;> rfl, nofun⟩

theorem JoinCall.Phase.frame {s : JoinCall} {clock : Nat} {threads : Nat → JoinThread}
    (h : s.Phase) : ({ s with clock, threads } : JoinCall).Phase := by
  cases h with
  | fresh hw hh hbox hcount => exact .fresh hw hh hbox hcount
  | unused hw hh hcount => exact .unused hw hh hcount
  | setup hw hh hdone hreleased hcount => exact .setup hw hh hdone hreleased hcount
  | undo hw hh hcount => exact .undo hw hh hcount
  | undone hw hh hcount => exact .undone hw hh hcount
  | shared hw hh hdone hreleased hfree hcount =>
    exact .shared hw hh hdone hreleased hfree hcount
  | handed hw hh hreleased hfree hcount => exact .handed hw hh hreleased hfree hcount
  | kept hw hh hdone hreleased hcount => exact .kept hw hh hdone hreleased hcount
  | ended hw hh hcount => exact .ended hw hh hcount

theorem JoinCall.Owned.step {s s' : JoinCall} {m : JoinMove} (h : s.Owned)
    (hst : s.step m = some s') : s'.Owned := by
  cases m with
  | tick d =>
    cases hst
    exact ⟨h.phase.frame, h.guards, h.waits⟩
  | ends t =>
    rw [JoinCall.step] at hst
    split at hst
    · cases hst
      exact ⟨h.phase.frame, h.guards, h.waits⟩
    · cases hst
  | waiter rc => exact h.waiter hst
  | helper rc => exact h.helper hst

/-! ## What the call returns -/

namespace JoinWaiter

/-- The result that has been settled on. -/
def ret? : JoinWaiter → Option Int
  | condDestroy ret | mutexDestroy ret | free ret | returned ret => some ret
  | _ => none

/-- From the store of `target` to `pthread_create`. -/
def named : JoinWaiter → Bool
  | mutexInit | condInit | attrInit | setDetached | create => true
  | _ => false

end JoinWaiter

/-- The deadline has passed without `done` having been seen; and the box, if any, is the helper's. -/
def JoinCall.TimedOut (s : JoinCall) : Prop :=
  s.deadline ≤ s.clock ∧ s.observed = false ∧
    (s.boxes = 1 → s.box.released = true ∧ s.helper ≠ .absent)

/-- What the results of a call stand for. -/
structure JoinCall.Answered (s : JoinCall) : Prop where
  target : s.waiter.named = true ∨ s.helper = .loadTarget → s.box.target = s.thr
  join : ∀ t, s.helper = .join t → t = s.thr
  result : s.helper = .lock 0 ∨ s.helper = .setRc 0 ∨ s.waiter = .unlockDone 0 →
    s.threads s.thr = .joined
  rc : s.helper = .setDone ∨ s.box.done = true → s.box.rc = 0 → s.threads s.thr = .joined
  late : s.waiter = .setReleased ∨ s.waiter = .unlockReleased → s.deadline ≤ s.clock
  unobserved : s.box.done = false → s.observed = false
  ret : ∀ r, s.waiter.ret? = some r → (r = 0 → s.threads s.thr = .joined) ∧ (r = 1 → s.TimedOut)
  threads : ∀ t, s.threads t ≠ .detached ∧ s.threads t ≠ .cancelled ∧
    (s.threads t = .joined → t = s.thr)

theorem JoinCall.Answered.init (thr deadline clock : Nat) :
    (JoinCall.init thr deadline clock).Answered where
  target := by simp [JoinCall.init, JoinWaiter.named]
  join := by simp [JoinCall.init]
  result := by simp [JoinCall.init]
  rc := by simp [JoinCall.init]
  late := by simp [JoinCall.init]
  unobserved := by simp [JoinCall.init]
  ret := by simp [JoinCall.init, JoinWaiter.ret?]
  threads := by simp [JoinCall.init]

section Answers

variable {s s' : JoinCall} {rc : Nat}

/-- The waiter goes to `w`, where `w` keeps its own promises. -/
theorem JoinCall.Answered.goto {w : JoinWaiter} {mu : Option JoinParty} {released : Bool}
    {boxes freed : Nat} (h : s.Answered)
    (hnamed : w.named = true → s.box.target = s.thr)
    (hresult : w = .unlockDone 0 → s.threads s.thr = .joined)
    (hlate : w = .setReleased ∨ w = .unlockReleased → s.deadline ≤ s.clock)
    (hret : ∀ r, w.ret? = some r → (r = 0 → s.threads s.thr = .joined) ∧
      (r = 1 → s.deadline ≤ s.clock ∧ s.observed = false ∧
        (boxes = 1 → released = true ∧ s.helper ≠ .absent))) :
    ({ s with box := { s.box with mu, released }, waiter := w, boxes, freed } :
      JoinCall).Answered where
  target := by
    rintro (hw | hh)
    · exact hnamed hw
    · exact h.target (.inr hh)
  join := h.join
  result := by
    rintro (hh | hh | hw)
    · exact h.result (.inl hh)
    · exact h.result (.inr (.inl hh))
    · exact hresult hw
  rc := h.rc
  late := hlate
  unobserved := h.unobserved
  ret := hret
  threads := h.threads

/-- An error is a negative result. -/
theorem ret_of_error {r : Int} (hr : r < 0) {p q : Prop} : (r = 0 → p) ∧ (r = 1 → q) := by
  refine ⟨fun h ↦ ?_, fun h ↦ ?_⟩
  · omega
  · omega

theorem neg_of_rc (h : rc ≠ 0) : -(rc : Int) < 0 := by omega

/-- The cleanup after an error. -/
theorem JoinCall.Answered.fail {w : JoinWaiter} {r : Int} (h : s.Answered) (hr : r < 0)
    (hw : w = .condDestroy r ∨ w = .mutexDestroy r ∨ w = .free r ∨ w = .returned r) :
    ({ s with waiter := w } : JoinCall).Answered := by
  have hret : ∀ r', w.ret? = some r' → r' = r := by
    rintro r' hr'
    rcases hw with rfl | rfl | rfl | rfl <;> cases hr' <;> rfl
  refine h.goto (fun hn ↦ ?_) (fun hu ↦ ?_) (fun hl ↦ ?_) fun r' hr' ↦ ?_
  · rcases hw with rfl | rfl | rfl | rfl <;> cases hn
  · rcases hw with rfl | rfl | rfl | rfl <;> cases hu
  · rcases hw with rfl | rfl | rfl | rfl <;> rcases hl with hl | hl <;> cases hl
  · rw [hret r' hr']
    exact ret_of_error hr

theorem JoinCall.Answered.waiter (ho : s.Owned) (h : s.Answered) (hst : s.waiterStep rc = some s') :
    s'.Answered := by
  cases hpc : s.waiter with
  | now =>
    obtain ⟨hbox, hcount⟩ := ho.fresh_of (.inl hpc)
    have hdone : s.box.done = false := by rw [hbox]
    simp only [JoinCall.waiterStep, hpc] at hst
    cases hst
    split
    · rename_i hlate
      refine h.goto nofun nofun nofun fun r hr ↦ ?_
      cases hr
      exact ⟨nofun, fun _ ↦ ⟨hlate, h.unobserved hdone, fun hone ↦ by cases hcount.symm.trans hone⟩⟩
    · exact h.goto nofun nofun nofun nofun
  | calloc =>
    obtain ⟨hbox, -⟩ := ho.fresh_of (.inr hpc)
    simp only [JoinCall.waiterStep, hpc] at hst
    split at hst
    · cases hst
      rw [← hbox]
      exact h.goto nofun nofun nofun nofun
    · cases hst
      exact h.fail enomem_neg (by simp)
  | setTarget =>
    simp only [JoinCall.waiterStep, hpc] at hst
    cases hst
    refine ⟨fun _ ↦ rfl, h.join, fun hr ↦ ?_, h.rc, nofun, h.unobserved, nofun, h.threads⟩
    rcases hr with hr | hr | hr
    · exact h.result (.inl hr)
    · exact h.result (.inr (.inl hr))
    · cases hr
  | create =>
    have hnamed := h.target (.inl (by rw [hpc]; rfl))
    simp only [JoinCall.waiterStep, hpc] at hst
    split at hst
    · cases hst
      refine ⟨fun _ ↦ hnamed, nofun, by simp, fun hr ↦ ?_, nofun, h.unobserved, nofun, h.threads⟩
      rcases hr with hr | hr
      · cases hr
      · exact h.rc (.inr hr)
    · rename_i hrc
      cases hst
      exact h.fail (neg_of_rc hrc) (.inl rfl)
  | loadDone =>
    simp only [JoinCall.waiterStep, hpc] at hst
    split at hst
    · rename_i hdone
      cases hst
      refine ⟨?_, h.join, fun hr ↦ ?_, h.rc, nofun, fun hno ↦ ?_, nofun, h.threads⟩
      · rintro (hw | hh)
        · cases hw
        · exact h.target (.inr hh)
      · rcases hr with hr | hr | hr
        · exact h.result (.inl hr)
        · exact h.result (.inr (.inl hr))
        · cases hr
      · cases hdone.symm.trans hno
    · cases hst
      exact h.goto nofun nofun nofun nofun
  | setReleased =>
    have hlate := h.late (.inl hpc)
    simp only [JoinCall.waiterStep, hpc] at hst
    cases hst
    exact h.goto nofun nofun (fun _ ↦ hlate) nofun
  | mutexInit | condInit | attrInit =>
    have hnamed := h.target (.inl (by rw [hpc]; rfl))
    simp only [JoinCall.waiterStep, hpc] at hst
    cases hst
    split
    · exact h.goto (fun _ ↦ hnamed) nofun nofun nofun
    · exact h.fail enomem_neg (by simp)
  | setDetached =>
    have hnamed := h.target (.inl (by rw [hpc]; rfl))
    simp only [JoinCall.waiterStep, hpc] at hst
    cases hst
    split
    · exact h.goto (fun _ ↦ hnamed) nofun nofun nofun
    · rename_i hrc
      exact h.fail (neg_of_rc hrc) (.inl rfl)
  | lock =>
    simp only [JoinCall.waiterStep, hpc] at hst
    split at hst
    · cases hst
      exact h.goto nofun nofun nofun nofun
    · cases hst
  | poll =>
    simp only [JoinCall.waiterStep, hpc] at hst
    cases hst
    split
    · rename_i hlate
      exact h.goto nofun nofun (fun _ ↦ hlate) nofun
    · exact h.goto nofun nofun nofun nofun
  | unlockReleased =>
    have hdone := ho.waits (by rw [hpc]; rfl)
    have hhanded := ho.handed_of hpc
    simp only [JoinCall.waiterStep, hpc] at hst
    cases hst
    refine h.goto nofun nofun nofun fun r hr ↦ ?_
    cases hr
    exact ⟨nofun, fun _ ↦ ⟨h.late (.inr hpc), h.unobserved hdone, fun _ ↦ hhanded⟩⟩
  | unlockPoll | sleep =>
    simp only [JoinCall.waiterStep, hpc] at hst
    cases hst
    exact h.goto nofun nofun nofun nofun
  | loadRc =>
    have hdone : s.box.done = true := by
      cases ho.phase with
      | kept _ _ hdone => exact hdone
      | _ => simp_all [JoinWaiter.setsUp, JoinWaiter.frees, JoinWaiter.polls]
    simp only [JoinCall.waiterStep, hpc] at hst
    cases hst
    refine h.goto nofun (fun he ↦ ?_) nofun nofun
    exact h.rc (.inr hdone) (JoinWaiter.unlockDone.inj he)
  | unlockDone r =>
    simp only [JoinCall.waiterStep, hpc] at hst
    cases hst
    refine h.goto nofun nofun nofun fun r' hr' ↦ ?_
    cases hr'
    split
    · rename_i hr
      subst hr
      exact ⟨fun _ ↦ h.result (.inr (.inr hpc)), nofun⟩
    · rename_i hr
      exact ret_of_error (neg_of_rc hr)
  | condDestroy ret | mutexDestroy ret =>
    have hret := h.ret ret (by rw [hpc]; rfl)
    simp only [JoinCall.waiterStep, hpc] at hst
    cases hst
    refine h.goto nofun nofun nofun fun r hr ↦ ?_
    cases hr
    exact hret
  | free ret =>
    have hret := h.ret ret (by rw [hpc]; rfl)
    simp only [JoinCall.waiterStep, hpc] at hst
    cases hst
    refine h.goto nofun nofun nofun fun r hr ↦ ?_
    cases hr
    exact hret
  | returned ret => cases (JoinCall.waiterStep_returned hpc).symm.trans hst

/-- The helper goes to `q`, where `q` and the box keep their own promises. -/
theorem JoinCall.Answered.helper_store {q : JoinHelper} {mu : Option JoinParty} {done : Bool}
    {r freed : Nat} (h : s.Answered) (hq : q ≠ .absent ∧ q ≠ .loadTarget)
    (hjoin : ∀ t, q = .join t → t = s.thr)
    (hresult : q = .lock 0 ∨ q = .setRc 0 → s.threads s.thr = .joined)
    (hrc : q = .setDone ∨ done = true → r = 0 → s.threads s.thr = .joined)
    (hdone : done = false → s.box.done = false) :
    ({ s with box := { s.box with mu, done, rc := r }, helper := q, freed } : JoinCall).Answered where
  target := by
    rintro (hw | hh)
    · exact h.target (.inl hw)
    · exact absurd hh hq.2
  join := hjoin
  result := by
    rintro (hh | hh | hw)
    · exact hresult (.inl hh)
    · exact hresult (.inr hh)
    · exact h.result (.inr (.inr hw))
  rc := hrc
  late := h.late
  unobserved := fun hno ↦ h.unobserved (hdone hno)
  ret := fun r hr ↦ by
    refine ⟨(h.ret r hr).1, fun hone ↦ ?_⟩
    obtain ⟨hlate, hun, hhanded⟩ := (h.ret r hr).2 hone
    exact ⟨hlate, hun, fun hbox ↦ ⟨(hhanded hbox).1, hq.1⟩⟩
  threads := h.threads

/-- As above, where the helper leaves the fields of the box alone. -/
theorem JoinCall.Answered.helper_goto {q : JoinHelper} {mu : Option JoinParty} {freed : Nat}
    (h : s.Answered) (hq : q ≠ .absent ∧ q ≠ .loadTarget ∧ q ≠ .setDone)
    (hjoin : ∀ t, q = .join t → t = s.thr)
    (hresult : q = .lock 0 ∨ q = .setRc 0 → s.threads s.thr = .joined) :
    ({ s with box := { s.box with mu }, helper := q, freed } : JoinCall).Answered :=
  h.helper_store ⟨hq.1, hq.2.1⟩ hjoin hresult (fun hr ↦ h.rc (.inr (hr.resolve_left hq.2.2))) id

/-- The threads `threads` are those of before, and the target may have been joined. -/
theorem JoinCall.Answered.threads_goto {threads : Nat → JoinThread} (h : s.Answered)
    (hkeep : s.threads s.thr = .joined → threads s.thr = .joined)
    (hthreads : ∀ t, threads t ≠ .detached ∧ threads t ≠ .cancelled ∧
      (threads t = .joined → t = s.thr)) : ({ s with threads } : JoinCall).Answered where
  target := h.target
  join := h.join
  result := fun hr ↦ hkeep (h.result hr)
  rc := fun hr hzero ↦ hkeep (h.rc hr hzero)
  late := h.late
  unobserved := h.unobserved
  ret := fun r hr ↦ ⟨fun hzero ↦ hkeep ((h.ret r hr).1 hzero), (h.ret r hr).2⟩
  threads := hthreads

theorem JoinCall.Answered.helper (h : s.Answered) (hst : s.helperStep rc = some s') :
    s'.Answered := by
  cases hpc : s.helper with
  | loadTarget =>
    have htarget := h.target (.inr hpc)
    simp only [JoinCall.helperStep, hpc] at hst
    cases hst
    refine h.helper_goto (by simp) (fun t ht ↦ ?_) (by simp)
    cases ht
    exact htarget
  | join t =>
    have ht := h.join t hpc
    subst ht
    simp only [JoinCall.helperStep, hpc] at hst
    split at hst
    · split at hst
      · cases hst
        have hjoined : Function.update s.threads s.thr .joined s.thr = .joined :=
          Function.update_self ..
        refine JoinCall.Answered.helper_goto (JoinCall.Answered.threads_goto h (fun _ ↦ hjoined)
          fun t ↦ ?_) (by simp) (by simp) fun _ ↦ hjoined
        by_cases ht : t = s.thr
        · subst ht
          rw [hjoined]
          exact ⟨by simp, by simp, fun _ ↦ rfl⟩
        · rw [Function.update_of_ne ht]
          exact h.threads t
      · cases hst
    · rename_i hrc
      cases hst
      exact h.helper_goto (by simp) (by simp) (by simp [hrc])
  | lock r =>
    simp only [JoinCall.helperStep, hpc] at hst
    split at hst
    · cases hst
      refine h.helper_goto (by simp) (by simp) fun hr ↦ h.result (.inl ?_)
      rcases hr with hr | hr
      · cases hr
      · cases hr
        exact hpc
    · cases hst
  | setRc r =>
    simp only [JoinCall.helperStep, hpc] at hst
    cases hst
    refine h.helper_store (by simp) (by simp) (by simp) (fun _ hzero ↦ ?_) id
    exact h.result (.inr (.inl (hpc.trans (congrArg JoinHelper.setRc hzero))))
  | setDone =>
    simp only [JoinCall.helperStep, hpc] at hst
    cases hst
    exact h.helper_store (by simp) (by simp) (by simp) (fun _ ↦ h.rc (.inl hpc)) nofun
  | unlock b =>
    simp only [JoinCall.helperStep, hpc] at hst
    cases hst
    cases b with
    | false => exact h.helper_goto (by simp) (by simp) (by simp)
    | true => exact h.helper_goto (by simp) (by simp) (by simp)
  | loadReleased | broadcast _ | condDestroy | mutexDestroy | free =>
    simp only [JoinCall.helperStep, hpc] at hst
    cases hst
    exact h.helper_goto (by simp) (by simp) (by simp)
  | absent | returned =>
    simp only [JoinCall.helperStep, hpc] at hst
    cases hst

theorem JoinCall.Answered.step {m : JoinMove} (ho : s.Owned) (h : s.Answered)
    (hst : s.step m = some s') : s'.Answered := by
  cases m with
  | tick d =>
    cases hst
    refine ⟨h.target, h.join, h.result, h.rc, fun hw ↦ (h.late hw).trans (Nat.le_add_right _ _),
      h.unobserved, fun r hr ↦ ?_, h.threads⟩
    obtain ⟨hzero, hone⟩ := h.ret r hr
    exact ⟨hzero, fun he ↦ ⟨(hone he).1.trans (Nat.le_add_right _ _), (hone he).2⟩⟩
  | ends t =>
    rw [JoinCall.step] at hst
    split at hst
    · rename_i hrun
      cases hst
      refine h.threads_goto (fun hjoined ↦ ?_) fun t' ↦ ?_
      · rw [Function.update_of_ne]
        · exact hjoined
        · rintro rfl
          cases hrun.symm.trans hjoined
      · by_cases ht : t' = t
        · subst ht
          rw [Function.update_self]
          exact ⟨by simp, by simp, by simp⟩
        · rw [Function.update_of_ne ht]
          exact h.threads t'
    · cases hst
  | waiter rc => exact h.waiter ho hst
  | helper rc => exact h.helper hst

theorem JoinCall.step_frame {m : JoinMove} (hst : s.step m = some s') :
    s'.thr = s.thr ∧ s'.deadline = s.deadline := by
  cases m with
  | tick d =>
    cases hst
    exact ⟨rfl, rfl⟩
  | ends t =>
    rw [JoinCall.step] at hst
    split at hst
    · cases hst
      exact ⟨rfl, rfl⟩
    · cases hst
  | waiter rc =>
    obtain ⟨hthr, hdeadline, -⟩ := JoinCall.waiterStep_spec hst
    exact ⟨hthr, hdeadline⟩
  | helper rc =>
    obtain ⟨hthr, hdeadline, -⟩ := JoinCall.helperStep_spec hst
    exact ⟨hthr, hdeadline⟩

end Answers

/-! ## The waiter that keeps the box comes to free it -/

section Left

variable {s s' : JoinCall} {rc : Nat} {m : JoinMove}

/-- The helper has gone: the waiter has the box for itself, or has freed it. -/
theorem JoinCall.Owned.of_returned (h : s.Owned) (hh : s.helper = .returned) : s.boxes = 1 ∧
    ((s.waiter.polls = true ∨ s.waiter.reads = true ∨ s.waiter.frees = true) ∧
        s.box.done = true ∧ s.waiter.waits = false ∧ s.freed = 0 ∨
      (∃ ret, s.waiter = .returned ret) ∧ s.freed = 1) := by
  cases h.phase with
  | kept hw _ hdone _ hcount =>
    refine ⟨hcount.1, .inl ⟨hw, hdone, ?_, hcount.2⟩⟩
    cases hwaits : s.waiter.waits with
    | false => rfl
    | true => cases hdone.symm.trans (h.waits hwaits)
  | ended hw _ hcount => exact ⟨hcount.1, .inr ⟨hw, hcount.2⟩⟩
  | fresh _ hh' | unused _ hh' | setup _ hh' | undo _ hh' | undone _ hh' =>
    cases hh.symm.trans hh'
  | shared _ hh' =>
    rw [hh] at hh'
    rcases hh' with hh' | hh' <;> cases hh'
  | handed _ hh' =>
    rw [hh] at hh'
    rcases hh' with hh' | hh' | hh' <;> cases hh'

/-- Each step of the waiter is then one less to its end. -/
theorem JoinCall.Owned.waiter_left (h : s.Owned) (hh : s.helper = .returned)
    (hst : s.waiterStep rc = some s') : s'.waiter.left + 1 = s.waiter.left := by
  rcases (h.of_returned hh).2 with ⟨hw, hdone, hwaits, -⟩ | ⟨⟨ret, hw⟩, -⟩
  · cases hpc : s.waiter with
    | lock =>
      simp only [JoinCall.waiterStep, hpc] at hst
      split at hst
      · cases hst
        rfl
      · cases hst
    | loadDone =>
      simp only [JoinCall.waiterStep, hpc, hdone, if_true] at hst
      cases hst
      rfl
    | sleep | loadRc | unlockDone _ | condDestroy _ | mutexDestroy _ | free _ =>
      simp only [JoinCall.waiterStep, hpc] at hst
      cases hst
      rfl
    | poll | setReleased | unlockPoll | unlockReleased =>
      rw [hpc] at hwaits
      cases hwaits
    | _ =>
      rw [hpc] at hw
      rcases hw with hw | hw | hw <;> cases hw
  · cases (JoinCall.waiterStep_returned hw).symm.trans hst

/-- It can always take it: nobody else is left who could hold the lock. -/
theorem JoinCall.Owned.waiter_enabled (h : s.Owned) (hh : s.helper = .returned)
    (hleft : s.waiter.left ≠ 0) (rc : Nat) : (s.waiterStep rc).isSome = true := by
  cases hpc : s.waiter with
  | lock =>
    have hmu : s.box.mu = none := by
      rcases hmu : s.box.mu with _ | a
      · rfl
      · have hin := (h.guards a).mpr hmu
        cases a with
        | waiter => rw [JoinCall.inside, hpc] at hin; cases hin
        | helper => rw [JoinCall.inside, hh] at hin; cases hin
    simp [JoinCall.waiterStep, hpc, hmu]
  | loadDone =>
    simp only [JoinCall.waiterStep, hpc]
    split
    · rfl
    · rfl
  | sleep | loadRc | unlockDone _ | condDestroy _ | mutexDestroy _ | free _ =>
    simp [JoinCall.waiterStep, hpc]
  | _ => exact absurd (by rw [hpc]; rfl) hleft

theorem JoinCall.Owned.freed_of_left (h : s.Owned) (hh : s.helper = .returned)
    (hleft : s.waiter.left = 0) : s.freed = 1 := by
  rcases (h.of_returned hh).2 with ⟨hw, -, hwaits, -⟩ | ⟨-, hfreed⟩
  · cases hpc : s.waiter with
    | lock | loadDone | sleep | loadRc | unlockDone _ | condDestroy _ | mutexDestroy _ | free _ =>
      rw [hpc] at hleft
      cases hleft
    | poll | setReleased | unlockPoll | unlockReleased =>
      rw [hpc] at hwaits
      cases hwaits
    | _ =>
      rw [hpc] at hw
      rcases hw with hw | hw | hw <;> cases hw
  · exact hfreed

/-- Nothing but the waiter moves the waiter, and a helper that has gone stays so. -/
theorem JoinCall.Owned.step_left (h : s.Owned) (hh : s.helper = .returned)
    (hst : s.step m = some s') : s'.helper = .returned ∧
      s'.waiter.left + (if m.isWaiter then 1 else 0) = s.waiter.left := by
  cases m with
  | tick d =>
    cases hst
    exact ⟨hh, rfl⟩
  | ends t =>
    rw [JoinCall.step] at hst
    split at hst
    · cases hst
      exact ⟨hh, rfl⟩
    · cases hst
  | waiter rc =>
    refine ⟨?_, h.waiter_left hh hst⟩
    rcases (JoinCall.waiterStep_spec hst).2.2 with he | ⟨hpc, -⟩
    · exact he.trans hh
    · cases hh.symm.trans (h.absent_of hpc)
  | helper rc =>
    rw [JoinCall.step, JoinCall.helperStep, hh] at hst
    cases hst

/-- Over a schedule, what is left of the waiter's way is what it has not gone. -/
theorem JoinCall.Owned.exec_left {as : List JoinMove} (h : s.Owned) (hh : s.helper = .returned)
    (hrun : exec JoinCall.step s as = some s') : s'.Owned ∧ s'.helper = .returned ∧
      s'.waiter.left + as.countP (·.isWaiter) = s.waiter.left := by
  induction as generalizing s with
  | nil =>
    cases hrun
    exact ⟨h, hh, rfl⟩
  | cons m as ih =>
    obtain ⟨u, hst, hrest⟩ := Option.bind_eq_some_iff.mp hrun
    obtain ⟨hh', hleft⟩ := h.step_left hh hst
    obtain ⟨ho, hr, hcount⟩ := ih (h.step hst) hh' hrest
    refine ⟨ho, hr, ?_⟩
    rw [List.countP_cons]
    omega

end Left

/-! ## Ownership of the box -/

/-- What callers of `awp_pthread_join_deadline` and the two threads rely on. -/
structure JoinCall.Sound (s : JoinCall) : Prop where
  /-- The box is freed at most once. -/
  once : s.freed ≤ s.boxes ∧ s.boxes ≤ 1
  /-- Nobody uses it after that, nor beside the one who is freeing it. -/
  after : s.freed = 1 → s.waiter.touches = false ∧ s.helper.touches = false
  alone : (s.waiter.frees = true → s.helper.touches = false) ∧
    (s.helper.frees = true → s.waiter.touches = false)
  /-- When the helper has finished, the box is freed after at most eight more steps of the waiter,
  each of which it can take. -/
  finishes : s.helper = .returned → s.boxes = 1 ∧ s.waiter.left ≤ 8 ∧
    ∀ as t, exec JoinCall.step s as = some t →
      t.waiter.left + as.countP (·.isWaiter) = s.waiter.left ∧ (t.waiter.left = 0 → t.freed = 1) ∧
        (t.waiter.left ≠ 0 → ∀ rc, (t.step (.waiter rc)).isSome = true)
  /-- Without a helper the waiter frees what it has obtained. -/
  undone : s.helper = .absent → ∀ ret, s.waiter = .returned ret → s.freed = s.boxes
  joined : s.waiter = .returned 0 → s.threads s.thr = .joined
  late : s.waiter = .returned 1 → s.deadline ≤ s.clock ∧ s.observed = false
  /-- After a timeout the box is the helper's until it frees it. -/
  handed : s.waiter = .returned 1 → s.boxes = 1 → s.box.released = true ∧ s.helper ≠ .absent ∧
    (s.freed = 0 ↔ s.helper ≠ .returned)
  target : ∀ t, s.threads t ≠ .detached ∧ s.threads t ≠ .cancelled ∧
    (s.threads t = .joined → t = s.thr)

theorem JoinWaiter.left_le (p : JoinWaiter) : p.left ≤ 8 := by
  cases p <;> simp [JoinWaiter.left]

section Sound

variable {s : JoinCall}

theorem JoinCall.Phase.once (h : s.Phase) : s.freed ≤ s.boxes ∧ s.boxes ≤ 1 := by
  cases h with
  | fresh _ _ _ hcount | unused _ _ hcount | setup _ _ _ _ hcount | undo _ _ hcount
    | undone _ _ hcount | shared _ _ _ _ _ hcount | handed _ _ _ _ hcount | kept _ _ _ _ hcount
    | ended _ _ hcount => omega

theorem JoinCall.Phase.after (h : s.Phase) (hfreed : s.freed = 1) :
    s.waiter.touches = false ∧ s.helper.touches = false := by
  cases h with
  | undone hw hh _ | ended hw hh _ =>
    obtain ⟨ret, hw⟩ := hw
    rw [hw, hh]
    exact ⟨rfl, rfl⟩
  | fresh _ _ _ hcount | unused _ _ hcount | setup _ _ _ _ hcount | undo _ _ hcount
    | shared _ _ _ _ _ hcount | handed _ _ _ _ hcount | kept _ _ _ _ hcount => omega

theorem JoinHelper.not_frees {p : JoinHelper} (h : p.early = true ∨ p.inside = true) :
    p.frees = false := by
  cases p with
  | condDestroy | mutexDestroy | free => rcases h with h | h <;> cases h
  | _ => rfl

theorem JoinWaiter.not_frees {p : JoinWaiter} (h : p.polls = true) : p.frees = false := by
  cases p with
  | condDestroy _ | mutexDestroy _ | free _ => cases h
  | _ => rfl

/-- A party that frees the box is alone with it. -/
theorem JoinCall.Phase.alone (h : s.Phase) : (s.waiter.frees = true → s.helper.touches = false) ∧
    (s.helper.frees = true → s.waiter.touches = false) := by
  cases h with
  | fresh _ hh | unused _ hh | setup _ hh | undo _ hh | undone _ hh | kept _ hh | ended _ hh =>
    rw [hh]
    exact ⟨fun _ ↦ rfl, nofun⟩
  | shared hw hh =>
    rw [JoinWaiter.not_frees hw, JoinHelper.not_frees hh]
    exact ⟨nofun, nofun⟩
  | handed hw hh =>
    rcases hw with ⟨hw, hearly⟩ | hw
    · rw [hw, JoinHelper.not_frees (.inl hearly)]
      exact ⟨nofun, nofun⟩
    · rw [hw]
      exact ⟨nofun, fun _ ↦ rfl⟩

/-- The box of a call that timed out is freed by the helper, as its last step. -/
theorem JoinCall.Owned.handed (h : s.Owned) (hw : s.waiter = .returned 1)
    (hh : s.helper ≠ .absent) :
    s.freed = 0 ↔ s.helper ≠ .returned := by
  constructor
  · rintro hzero hret
    rcases (h.of_returned hret).2 with ⟨hw', -⟩ | ⟨-, hone⟩
    · rw [hw] at hw'
      rcases hw' with hw' | hw' | hw' <;> cases hw'
    · omega
  · intro hne
    cases h.phase with
    | handed _ _ _ _ hcount => exact hcount.2
    | shared hw' => rw [hw] at hw'; cases hw'
    | fresh _ hh' | unused _ hh' | setup _ hh' | undo _ hh' | undone _ hh' => exact absurd hh' hh
    | kept _ hh' | ended _ hh' => exact absurd hh' hne

theorem JoinCall.Owned.finishes (h : s.Owned) (hh : s.helper = .returned) : s.boxes = 1 ∧
    s.waiter.left ≤ 8 ∧ ∀ as t, exec JoinCall.step s as = some t →
      t.waiter.left + as.countP (·.isWaiter) = s.waiter.left ∧ (t.waiter.left = 0 → t.freed = 1) ∧
        (t.waiter.left ≠ 0 → ∀ rc, (t.step (.waiter rc)).isSome = true) := by
  refine ⟨(h.of_returned hh).1, JoinWaiter.left_le _, fun as t hrun ↦ ?_⟩
  obtain ⟨ho, hr, hcount⟩ := h.exec_left hh hrun
  exact ⟨hcount, ho.freed_of_left hr, ho.waiter_enabled hr⟩

theorem JoinCall.Owned.sound (h : s.Owned) (ha : s.Answered) : s.Sound where
  once := h.phase.once
  after := h.phase.after
  alone := h.phase.alone
  finishes := h.finishes
  undone := fun hh ret hw ↦ by
    cases h.phase with
    | unused _ _ hcount | undone _ _ hcount => omega
    | fresh hw' => rcases hw' with hw' | hw' <;> cases hw.symm.trans hw'
    | setup hw' | undo hw' => rw [hw] at hw'; cases hw'
    | shared _ hh' => rw [hh] at hh'; rcases hh' with hh' | hh' <;> cases hh'
    | handed _ hh' => rw [hh] at hh'; rcases hh' with hh' | hh' | hh' <;> cases hh'
    | kept _ hh' | ended _ hh' => cases hh.symm.trans hh'
  joined := fun hw ↦ (ha.ret 0 (by rw [hw]; rfl)).1 rfl
  late := fun hw ↦ by
    obtain ⟨hlate, hun, -⟩ := (ha.ret 1 (by rw [hw]; rfl)).2 rfl
    exact ⟨hlate, hun⟩
  handed := fun hw hbox ↦ by
    obtain ⟨-, -, hhanded⟩ := (ha.ret 1 (by rw [hw]; rfl)).2 rfl
    obtain ⟨hreleased, hh⟩ := hhanded hbox
    exact ⟨hreleased, hh, h.handed hw hh⟩
  target := ha.threads

/-- **One owner frees the join box.**  In every interleaving of the caller of
`awp_pthread_join_deadline`, its helper, the clock and the threads that end, the box is freed once
and by a party that is alone with it, 0 stands for a thread that has been joined, 1 for a deadline
that has passed before the end was seen, and the target is neither detached nor cancelled. -/
theorem join_box_owned {thr deadline clock : Nat}
    (h : Steps JoinCall.step anyStep (.init thr deadline clock) s) :
    s.Sound ∧ s.thr = thr ∧ s.deadline = deadline := by
  have hinv : s.Owned ∧ s.Answered ∧ s.thr = thr ∧ s.deadline = deadline :=
    h.invariant (P := fun s ↦ s.Owned ∧ s.Answered ∧ s.thr = thr ∧ s.deadline = deadline)
      (fun s m s' hs _ hst ↦ by
        obtain ⟨ho, ha, hthr, hdeadline⟩ := hs
        obtain ⟨hthr', hdeadline'⟩ := JoinCall.step_frame hst
        exact ⟨ho.step hst, ha.step ho hst, hthr'.trans hthr, hdeadline'.trans hdeadline⟩)
      ⟨.init thr deadline clock, .init thr deadline clock, rfl, rfl⟩
  obtain ⟨ho, ha, hthr, hdeadline⟩ := hinv
  exact ⟨ho.sound ha, hthr, hdeadline⟩

/-- The clock passes the deadline while the target runs; it ends later, and the helper frees the
box. -/
theorem join_box_owned_timeout : ∃ s, exec JoinCall.step (.init 3 10 0)
    (List.replicate 10 (.waiter 0) ++ [.tick 10] ++ List.replicate 3 (.waiter 0) ++ [.ends 3] ++
      List.replicate 11 (.helper 0)) = some s ∧
    (s.waiter = .returned 1 ∧ s.helper = .returned ∧ s.freed = 1) ∧ s.Sound := by
  have hrun : ∃ s, exec JoinCall.step (.init 3 10 0)
      (List.replicate 10 (.waiter 0) ++ [.tick 10] ++ List.replicate 3 (.waiter 0) ++ [.ends 3] ++
        List.replicate 11 (.helper 0)) = some s ∧
      (s.waiter = .returned 1 ∧ s.helper = .returned ∧ s.freed = 1) := ⟨_, rfl, rfl, rfl, rfl⟩
  obtain ⟨s, hexec, hend⟩ := hrun
  exact ⟨s, hexec, hend, (join_box_owned (exec_steps hexec)).1⟩

end Sound

end Awp
