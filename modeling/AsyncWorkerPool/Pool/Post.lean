import AsyncWorkerPool.Pool.Shards

/-!
# Post — the threads of one worker

A worker's post is held by one thread after another.  `Post` is what is always true of it: threads
before the current one have returned and been joined once, later ones do not exist yet, and the
words `state` and `joined` of `awp_worker_t` never claim more than what has happened to the current
thread.  The lemmas say which writes keep a post in order, and when.
-/

open Foundation

namespace Awp

/-- How far a thread has come. -/
inductive Stage where
  | fresh | live | ended
  deriving DecidableEq

def WorkerPc.stage : WorkerPc → Stage
  | .entry => .fresh
  | .returned => .ended
  | _ => .live

def Pc.stage : Pc → Stage
  | .worker p => p.stage
  | _ => .live

/-- The current thread of the worker. -/
def Worker.cur (w : Worker) : Nat := w.spawned - 1

structure Post (w : Worker) (stage : Nat → Stage) (joins : Nat → Nat) : Prop where
  spawned : 0 < w.spawned
  past : ∀ k < w.cur, stage k = .ended ∧ joins k = 1
  future : ∀ k > w.cur, stage k = .fresh ∧ joins k = 0
  once : ∀ k, joins k ≤ 1
  after : ∀ k, joins k = 1 → stage k = .ended
  joined : w.joined = true → joins w.cur = 1
  exited : w.state = .exited ∨ w.state = .joined → stage w.cur = .ended
  running : w.state = .running → stage w.cur ≠ .fresh
  quarantined : w.state = .quarantined → stage w.cur ≠ .fresh ∨ w.late = true

namespace Post

variable {w w' : Worker} {stage : Nat → Stage} {joins : Nat → Nat}

theorem init (now : Nat) : Post (.start now) (fun _ ↦ .fresh) (fun _ ↦ 0) where
  spawned := by simp [Worker.start]
  past := by simp [Worker.cur, Worker.start]
  future _ _ := ⟨rfl, rfl⟩
  once := by simp
  after := by simp
  joined := by simp [Worker.start]
  exited := by simp [Worker.start]
  running := by simp [Worker.start]
  quarantined := by simp [Worker.start]

/-- A thread that exists and has not returned is the current one. -/
theorem current (h : Post w stage joins) {k : Nat} (hk : k < w.spawned)
    (hst : stage k ≠ .ended) : k = w.cur := by
  by_contra hne
  have hspawned := h.spawned
  have hlt : k < w.cur := by
    simp only [Worker.cur] at hne ⊢
    omega
  exact hst (h.past k hlt).1

theorem joins_eq (h : Post w stage joins) (k : Nat) : joins k = 0 ∨ joins k = 1 := by
  have hle := h.once k
  omega

/-- Writes to other fields of the worker. -/
theorem congr (h : Post w stage joins) (hstate : w'.state = w.state) (hjoined : w'.joined = w.joined)
    (hspawned : w'.spawned = w.spawned) (hlate : w.late = true → w'.late = true) :
    Post w' stage joins := by
  have hcur : w'.cur = w.cur := by rw [Worker.cur, hspawned, Worker.cur]
  exact
    { spawned := hspawned ▸ h.spawned
      past := hcur ▸ h.past
      future := hcur ▸ h.future
      once := h.once
      after := h.after
      joined := by rw [hjoined, hcur]; exact h.joined
      exited := by rw [hstate, hcur]; exact h.exited
      running := by rw [hstate, hcur]; exact h.running
      quarantined := by
        rw [hstate, hcur]
        exact fun hq ↦ (h.quarantined hq).imp_right hlate }

/-- The current thread starts: it stores `AWP_W_RUNNING`. -/
theorem enter (h : Post w stage joins) (hfresh : stage w.cur = .fresh) :
    Post { w with state := .running } (Function.update stage w.cur .live) joins := by
  have hzero : joins w.cur ≠ 1 := fun h1 ↦ by simpa [hfresh] using h.after _ h1
  have hcur : Worker.cur { w with state := .running } = w.cur := rfl
  refine
    { spawned := h.spawned
      past := fun k hk ↦ ?_, future := fun k hk ↦ ?_, once := h.once, after := fun k hk ↦ ?_
      joined := h.joined, exited := by simp, running := by simp [hcur], quarantined := by simp }
  · rw [hcur] at hk
    rw [Function.update_of_ne hk.ne]
    exact h.past k hk
  · rw [hcur] at hk
    rw [Function.update_of_ne hk.ne']
    exact h.future k hk
  · have hne : k ≠ w.cur := by
      rintro rfl
      exact hzero hk
    rw [Function.update_of_ne hne]
    exact h.after k hk

/-- The current thread returns, having stored `AWP_W_EXITED`. -/
theorem leave (h : Post w stage joins) :
    Post { w with state := .exited } (Function.update stage w.cur .ended) joins := by
  have hcur : Worker.cur { w with state := .exited } = w.cur := rfl
  refine
    { spawned := h.spawned
      past := fun k hk ↦ ?_, future := fun k hk ↦ ?_, once := h.once, after := fun k hk ↦ ?_
      joined := h.joined, exited := by simp [hcur], running := by simp, quarantined := by simp }
  · rw [hcur] at hk
    rw [Function.update_of_ne hk.ne]
    exact h.past k hk
  · rw [hcur] at hk
    rw [Function.update_of_ne hk.ne']
    exact h.future k hk
  · by_cases hne : k = w.cur
    · rw [hne, Function.update_self]
    · rw [Function.update_of_ne hne]
      exact h.after k hk

/-- The current thread is joined. -/
theorem join {joins' : Nat → Nat} (h : Post w stage joins) (hended : stage w.cur = .ended)
    (hone : joins' w.cur = 1) (hother : ∀ k ≠ w.cur, joins' k = joins k) :
    Post w stage joins' := by
  refine
    { spawned := h.spawned
      past := fun k hk ↦ ?_, future := fun k hk ↦ ?_, once := fun k ↦ ?_, after := fun k hk ↦ ?_
      joined := fun _ ↦ hone
      exited := h.exited, running := h.running, quarantined := h.quarantined }
  · rw [hother k hk.ne]
    exact h.past k hk
  · rw [hother k hk.ne']
    exact h.future k hk
  · by_cases hne : k = w.cur
    · rw [hne, hone]
    · rw [hother k hne]
      exact h.once k
  · by_cases hne : k = w.cur
    · rw [hne]
      exact hended
    · rw [hother k hne] at hk
      exact h.after k hk

/-- A thread is created: the one before it has been joined, and nobody has written the state since
`AWP_W_STARTING` but to quarantine the worker. -/
theorem spawn (h : Post w stage joins) (hone : joins w.cur = 1) (hunjoined : w.joined = false)
    (hstate : w.state = .starting ∨ (w.state = .quarantined ∧ w.late = true)) :
    Post { w with spawned := w.spawned + 1 } stage joins := by
  have hspawned := h.spawned
  have hcur : Worker.cur { w with spawned := w.spawned + 1 } = w.cur + 1 := by
    simp only [Worker.cur]
    omega
  refine
    { spawned := Nat.succ_pos _
      past := fun k hk ↦ ?_, future := fun k hk ↦ ?_, once := h.once, after := h.after
      joined := fun hj ↦ ?_, exited := fun he ↦ ?_, running := fun hr ↦ ?_
      quarantined := fun hq ↦ ?_ }
  · rw [hcur] at hk
    rcases Nat.lt_succ_iff_lt_or_eq.mp hk with hlt | rfl
    · exact h.past k hlt
    · exact ⟨h.after _ hone, hone⟩
  · rw [hcur] at hk
    exact h.future k (by omega)
  · rw [hunjoined] at hj
    cases hj
  · rcases hstate with hs | ⟨hs, -⟩ <;> rcases he with he | he <;> rw [hs] at he <;> cases he
  · rcases hstate with hs | ⟨hs, -⟩ <;> rw [hs] at hr <;> cases hr
  · rcases hstate with hs | ⟨-, hl⟩
    · rw [hs] at hq
      cases hq
    · exact Or.inr hl

/-- `joined = true`, after a join. -/
theorem setJoined (h : Post w stage joins) (hone : joins w.cur = 1) :
    Post { w with joined := true } stage joins :=
  { h with joined := fun _ ↦ hone }

/-- `joined = false`. -/
theorem clearJoined (h : Post w stage joins) : Post { w with joined := false } stage joins :=
  { h with joined := fun hj ↦ by cases hj }

/-- `state = AWP_W_STARTING`. -/
theorem starting (h : Post w stage joins) : Post { w with state := .starting } stage joins :=
  { h with exited := by simp, running := by simp, quarantined := by simp }

/-- `state = AWP_W_JOINED`, after the thread has returned. -/
theorem stateJoined (h : Post w stage joins) (hended : stage w.cur = .ended) :
    Post { w with state := .joined } stage joins :=
  { h with exited := fun _ ↦ hended, running := by simp, quarantined := by simp }

/-- `state = AWP_W_QUARANTINED`, by the supervisor. -/
theorem quarantine (h : Post w stage joins) (hup : stage w.cur ≠ .fresh) :
    Post { w with state := .quarantined } stage joins :=
  { h with exited := by simp, running := by simp, quarantined := fun _ ↦ Or.inl hup }

/-- `state = AWP_W_QUARANTINED`, by shutdown. -/
theorem quarantineLate (h : Post w stage joins) :
    Post { w with state := .quarantined, late := true } stage joins :=
  { h with exited := by simp, running := by simp, quarantined := fun _ ↦ Or.inr rfl }

end Post

end Awp
