import AsyncWorkerPool.Foundation.Ledger
import AsyncWorkerPool.Pool.Contents

/-!
# Create — `awp_pool_create`

What the function acquires and releases, with its cleanup labels and those of the init functions it
calls, as a ledger; the environment decides which acquisitions fail.  Stores into the pool are left
out, but for the pointers and counts that the cleanup looks at.
-/

open Foundation

namespace Awp

/-- What `awp_pool_create` acquires.  The cells and the frames of a ring are one block each, from
`posix_memalign` or, when that fails, from `calloc`. -/
inductive Res where
  | pool
  | lifeMu
  | lifeCv
  | metricsMu
  | feedTable
  | feed (i : Nat)
  | frameSlab
  | frameNext
  | frameMu
  | frameCv
  | workers
  | metricsBuf
  | ringMu (i : Nat)
  | ringCv (i : Nat)
  | ringCells (i : Nat)
  | ringFrames (i : Nat)
  | worker (i : Nat)
  | supervisor
  deriving DecidableEq

abbrev Book := List (Deed Res)

def enomem : Int := -12

/-- What a call of `awp_pool_create` meets: the acquisitions that fail, the threads that can be
joined, and the error number of `pthread_create`. -/
structure Env where
  fails : Res → Bool
  joins : Nat → Bool
  err : Nat
  err_pos : 0 < err

def Env.acquire (e : Env) (r : Res) (log : Book) : Option Book :=
  if e.fails r then none else some (log ++ [.got r])

def release (rs : List Res) (log : Book) : Book := log ++ rs.map .gave

/-- What the function leaves: its result, whether `*out` has been set, and the ledger. -/
structure Outcome where
  rc : Int
  out : Bool
  log : Book
  deriving DecidableEq

/-- `for (i = 0; i < n; i++) { rc = f(i); if (rc != 0) break; }`, from `i` on for `k` rounds; it
leaves `rc`, `i` and the ledger. -/
def forEach (f : Nat → Book → Int × Book) : Nat → Nat → Book → Int × Nat × Book
  | 0, i, log => (0, i, log)
  | k + 1, i, log =>
    match f i log with
    | (rc, log) => if rc ≠ 0 then (rc, i, log) else forEach f k (i + 1) log

/-! ## The init functions -/

/-- `ring_alloc_cells`. -/
def Env.ringAllocCells (e : Env) (i : Nat) (log : Book) : Int × Book :=
  match e.acquire (.ringCells i) log with
  | none => (enomem, log)
  | some log =>
    match e.acquire (.ringFrames i) log with
    | none => (enomem, release [.ringCells i] log)
    | some log => (0, log)

/-- `awp_ring_init`, on a capacity and a mode that have been checked. -/
def Env.ringInit (e : Env) (i : Nat) (log : Book) : Int × Book :=
  match e.acquire (.ringMu i) log with
  | none => (enomem, log)
  | some log =>
    match e.acquire (.ringCv i) log with
    | none => (enomem, release [.ringMu i] log)
    | some log =>
      match e.ringAllocCells i log with
      | (rc, log) => if rc ≠ 0 then (rc, release [.ringCv i, .ringMu i] log) else (rc, log)

/-- What `awp_ring_destroy` releases. -/
def ringDestroyed (i : Nat) : List Res := [.ringFrames i, .ringCells i, .ringCv i, .ringMu i]

/-- `awp_frame_pool_init`: both blocks are asked for before either is looked at. -/
def Env.framePoolInit (e : Env) (log : Book) : Int × Book :=
  match e.acquire .frameSlab log, e.acquire .frameNext ((e.acquire .frameSlab log).getD log) with
  | none, none => (enomem, log)
  | some log, none => (enomem, release [.frameSlab] log)
  | none, some log => (enomem, release [.frameNext] log)
  | some _, some log =>
    match e.acquire .frameMu log with
    | none => (enomem, release [.frameNext, .frameSlab] log)
    | some log =>
      match e.acquire .frameCv log with
      | none => (enomem, release [.frameMu, .frameNext, .frameSlab] log)
      | some log => (0, log)

/-- What `awp_frame_pool_destroy` releases. -/
def framePoolDestroyed : List Res := [.frameCv, .frameMu, .frameNext, .frameSlab]

/-- `free_broadcast_feeds`, with `n_broadcast_feeds` as it stands. -/
def freeBroadcastFeeds (table : Bool) (n : Nat) (log : Book) : Book :=
  if table then release [.feedTable] (release ((List.range n).map .feed) log) else log

/-- `copy_broadcast_feeds`; `n_broadcast_feeds` is set when all strings have been copied. -/
def Env.copyBroadcastFeeds (e : Env) (n : Nat) (log : Book) : Int × Book :=
  if n = 0 then (0, log)
  else
    match e.acquire .feedTable log with
    | none => (enomem, log)
    | some log =>
      match forEach (fun i log ↦ ((e.acquire (.feed i) log).elim (enomem, log) fun log ↦ (0, log)))
          n 0 log with
      | (rc, _, log) => if rc ≠ 0 then (enomem, freeBroadcastFeeds true 0 log) else (0, log)

/-- `awp_worker_start`. -/
def Env.workerStart (e : Env) (i : Nat) (log : Book) : Int × Book :=
  match e.acquire (.worker i) log with
  | none => (-e.err, log)
  | some log => (0, log)

/-! ## The cleanup labels -/

section Create

variable (e : Env) (c : Config)

def failMu (rc : Int) (log : Book) : Outcome :=
  ⟨rc, false, release [.metricsMu, .lifeCv, .lifeMu, .pool] log⟩

def failFeeds (rc : Int) (log : Book) : Outcome :=
  failMu rc (freeBroadcastFeeds (c.broadcastFeeds.length ≠ 0) c.broadcastFeeds.length log)

def failFrames (rc : Int) (log : Book) : Outcome := failFeeds c rc (release framePoolDestroyed log)

/-- `rings` is `rings_ok`. -/
def failWorkers (rc : Int) (rings : Nat) (log : Book) : Outcome :=
  failFrames c rc (release [.workers, .metricsBuf]
    (release ((List.range rings).flatMap ringDestroyed) log))

/-- The joins of `fail_running`, over the workers that have been started; 1 when one fails. -/
def joinStarted (started : Nat) (log : Book) : Int × Nat × Book :=
  forEach (fun i log ↦ if e.joins i then (0, release [.worker i] log) else (1, log)) started 0 log

def failRunning (rc : Int) (started : Nat) (log : Book) : Outcome :=
  match joinStarted e started log with
  | (joined, _, log) => if joined ≠ 0 then ⟨rc, false, log⟩ else failWorkers c rc c.nWorkers log

/-! ## `awp_pool_create` -/

def createThreads (log : Book) : Outcome :=
  match forEach (e.workerStart) c.nWorkers 0 log with
  | (rc, started, log) =>
    if rc ≠ 0 then failRunning e c rc started log
    else if c.enableSupervisor then
      match e.acquire .supervisor log with
      | none => failRunning e c (-e.err) started log
      | some log => ⟨0, true, log⟩
    else ⟨0, true, log⟩

/-- The two arrays are asked for before either is looked at. -/
def createWorkers (log : Book) : Outcome :=
  match e.acquire .workers log, e.acquire .metricsBuf ((e.acquire .workers log).getD log) with
  | none, none => failFrames c enomem log
  | some log, none => failFrames c enomem log
  | none, some log => failFrames c enomem log
  | some _, some log =>
    match forEach (e.ringInit) c.nWorkers 0 log with
    | (rc, rings, log) => if rc ≠ 0 then failWorkers c rc rings log else createThreads e c log

def createFeeds (log : Book) : Outcome :=
  match e.copyBroadcastFeeds c.broadcastFeeds.length log with
  | (rc, log) =>
    if rc ≠ 0 then failMu rc log
    else
      match e.framePoolInit log with
      | (rc, log) => if rc ≠ 0 then failFeeds c rc log else createWorkers e c log

/-- `awp_pool_create` on a configuration that passes its checks. -/
def poolCreate : Outcome :=
  match e.acquire .pool [] with
  | none => ⟨enomem, false, []⟩
  | some log =>
    match e.acquire .lifeMu log with
    | none => ⟨enomem, false, release [.pool] log⟩
    | some log =>
      match e.acquire .lifeCv log with
      | none => ⟨enomem, false, release [.lifeMu, .pool] log⟩
      | some log =>
        match e.acquire .metricsMu log with
        | none => ⟨enomem, false, release [.lifeCv, .lifeMu, .pool] log⟩
        | some log => createFeeds e c log

end Create

/-! ## What the init functions leave -/

section Specs

variable {e : Env} {log : Book} {M : Multiset Res} {l l' : List Res}

theorem enomem_neg : enomem < 0 := by decide

theorem Env.err_neg (e : Env) : -(e.err : Int) < 0 := by
  have h := e.err_pos
  omega

theorem holds_release (h : Holds log (↑l + M)) (hp : l'.Perm l) : Holds (release l' log) M :=
  Holds.gaves (Multiset.coe_eq_coe.mpr hp ▸ h)

theorem holds_got (h : Holds log (↑l + M)) (r : Res) : Holds (log ++ [.got r]) (Multiset.ofList (l ++ [r]) + M) := by
  have h' := h.got (r := r)
  rwa [← Multiset.cons_add, Multiset.cons_coe, Multiset.coe_eq_coe.mpr (List.perm_append_singleton r l).symm]
    at h'

theorem holds_empty : Holds log M ↔ Holds log (↑([] : List Res) + M) := by
  rw [Multiset.coe_nil, Multiset.zero_add]

theorem holds_append (h : Holds log (↑l' + (↑l + M))) : Holds log (Multiset.ofList (l ++ l') + M) := by
  rwa [← Multiset.add_assoc, Multiset.coe_add, Multiset.coe_eq_coe.mpr List.perm_append_comm] at h

theorem Env.acquire_cases (e : Env) (r : Res) (log : Book) :
    (e.acquire r log = none ∧ e.fails r = true) ∨
    (e.acquire r log = some (log ++ [.got r]) ∧ e.fails r = false) := by
  rw [Env.acquire]
  cases e.fails r
  · exact Or.inr ⟨rfl, rfl⟩
  · exact Or.inl ⟨rfl, rfl⟩

/-- The function has acquired all of `l`, or one of `l` fails and it has left nothing behind. -/
def Env.Tries (e : Env) (l : List Res) (log : Book) (o : Int × Book) : Prop :=
  ∀ M, Holds log M →
    (o.1 = 0 ∧ Holds o.2 (↑l + M) ∧ ∀ q ∈ l, e.fails q = false) ∨
    (o.1 < 0 ∧ Holds o.2 M ∧ ∃ q ∈ l, e.fails q = true)

theorem Env.ringAllocCells_tries (i : Nat) :
    e.Tries [.ringCells i, .ringFrames i] log (e.ringAllocCells i log) := by
  intro M h
  rw [Env.ringAllocCells]
  obtain ⟨ha, hf⟩ | ⟨ha, hf⟩ := e.acquire_cases (.ringCells i) log <;> rw [ha]
  · exact Or.inr ⟨enomem_neg, h, _, by simp, hf⟩
  have h₁ := holds_got (holds_empty.1 h) (.ringCells i)
  generalize log ++ [.got (.ringCells i)] = log at h₁
  dsimp only
  obtain ⟨ha', hf'⟩ | ⟨ha', hf'⟩ := e.acquire_cases (.ringFrames i) log <;> rw [ha']
  · exact Or.inr ⟨enomem_neg, holds_release h₁ (.refl _), _, by simp, hf'⟩
  · exact Or.inl ⟨rfl, holds_got h₁ _, by simp [hf, hf']⟩

/-- The resources of one ring. -/
def ringMade (i : Nat) : List Res := [.ringMu i, .ringCv i, .ringCells i, .ringFrames i]

theorem ringDestroyed_perm (i : Nat) : (ringDestroyed i).Perm (ringMade i) :=
  List.reverse_perm (ringMade i)

theorem Env.ringInit_tries (i : Nat) : e.Tries (ringMade i) log (e.ringInit i log) := by
  intro M h
  rw [Env.ringInit]
  obtain ⟨ha, hf⟩ | ⟨ha, hf⟩ := e.acquire_cases (.ringMu i) log <;> rw [ha]
  · exact Or.inr ⟨enomem_neg, h, _, by simp [ringMade], hf⟩
  have h₁ := holds_got (holds_empty.1 h) (.ringMu i)
  generalize log ++ [.got (.ringMu i)] = log at h₁
  dsimp only
  obtain ⟨ha', hf'⟩ | ⟨ha', hf'⟩ := e.acquire_cases (.ringCv i) log <;> rw [ha']
  · exact Or.inr ⟨enomem_neg, holds_release h₁ (.refl _), _, by simp [ringMade], hf'⟩
  have h₂ := holds_got h₁ (.ringCv i)
  generalize log ++ [.got (.ringCv i)] = log at h₂
  dsimp only
  rcases Env.ringAllocCells_tries (e := e) i _ h₂ with ⟨hrc, hh, hall⟩ | ⟨hrc, hh, q, hq, hf''⟩
  · rw [if_neg (by simpa using hrc)]
    exact Or.inl ⟨hrc, holds_append hh, by simpa [ringMade, hf, hf'] using hall⟩
  · rw [if_pos hrc.ne]
    refine Or.inr ⟨hrc, holds_release hh (.swap _ _ _), q, ?_, hf''⟩
    exact List.mem_append_right [.ringMu i, .ringCv i] hq

/-- The resources of the frame pool. -/
def framePoolMade : List Res := [.frameSlab, .frameNext, .frameMu, .frameCv]

theorem Env.framePoolInit_tries (log : Book) : e.Tries framePoolMade log (e.framePoolInit log) := by
  intro M h
  rw [Env.framePoolInit]
  obtain ⟨ha, hf⟩ | ⟨ha, hf⟩ := e.acquire_cases .frameSlab log <;> rw [ha]
  · rw [Option.getD_none]
    obtain ⟨ha', hf'⟩ | ⟨ha', hf'⟩ := e.acquire_cases .frameNext log <;> rw [ha']
    · exact Or.inr ⟨enomem_neg, h, _, by simp [framePoolMade], hf⟩
    · exact Or.inr ⟨enomem_neg, holds_release (holds_got (holds_empty.1 h) _) (.refl _), _,
        by simp [framePoolMade], hf⟩
  have h₁ := holds_got (holds_empty.1 h) .frameSlab
  rw [Option.getD_some]
  generalize log ++ [.got .frameSlab] = log at h₁
  obtain ⟨ha', hf'⟩ | ⟨ha', hf'⟩ := e.acquire_cases .frameNext log <;> rw [ha']
  · exact Or.inr ⟨enomem_neg, holds_release h₁ (.refl _), _, by simp [framePoolMade], hf'⟩
  have h₂ := holds_got h₁ .frameNext
  generalize log ++ [.got .frameNext] = log at h₂
  dsimp only
  obtain ⟨ha₃, hf₃⟩ | ⟨ha₃, hf₃⟩ := e.acquire_cases .frameMu log <;> rw [ha₃]
  · exact Or.inr ⟨enomem_neg, holds_release h₂ (by decide), _, by simp [framePoolMade], hf₃⟩
  have h₃ := holds_got h₂ .frameMu
  generalize log ++ [.got .frameMu] = log at h₃
  dsimp only
  obtain ⟨ha₄, hf₄⟩ | ⟨ha₄, hf₄⟩ := e.acquire_cases .frameCv log <;> rw [ha₄]
  · exact Or.inr ⟨enomem_neg, holds_release h₃ (by decide), _, by simp [framePoolMade], hf₄⟩
  · exact Or.inl ⟨rfl, holds_got h₃ _, by simp [framePoolMade, hf, hf', hf₃, hf₄]⟩

theorem Env.workerStart_tries (i : Nat) : e.Tries [.worker i] log (e.workerStart i log) := by
  intro M h
  rw [Env.workerStart]
  obtain ⟨ha, hf⟩ | ⟨ha, hf⟩ := e.acquire_cases (.worker i) log <;> rw [ha]
  · exact Or.inr ⟨e.err_neg, h, _, by simp, hf⟩
  · exact Or.inl ⟨rfl, holds_got (holds_empty.1 h) _, by simpa using hf⟩

end Specs

/-! ## Loops and cleanup -/

section Loops

variable {e : Env} {c : Config} {log : Book} {M : Multiset Res}

/-- A loop over functions that leave nothing behind on failure keeps what the rounds before the
failure have acquired. -/
theorem forEach_tries {f : Nat → Book → Int × Book} {g : Nat → List Res}
    (hf : ∀ i log, e.Tries (g i) log (f i log)) (k i : Nat) (h : Holds log M) :
    ((forEach f k i log).1 = 0 ∧ (forEach f k i log).2.1 = i + k ∧
      Holds (forEach f k i log).2.2 (Multiset.ofList ((List.range' i k).flatMap g) + M) ∧
      ∀ d < k, ∀ q ∈ g (i + d), e.fails q = false) ∨
    ((forEach f k i log).1 < 0 ∧ ∃ d < k, (forEach f k i log).2.1 = i + d ∧
      Holds (forEach f k i log).2.2 (Multiset.ofList ((List.range' i d).flatMap g) + M) ∧
      ∃ q ∈ g (i + d), e.fails q = true) := by
  induction k generalizing i log M with
  | zero => exact Or.inl ⟨rfl, rfl, holds_empty.1 h, by simp⟩
  | succ k ih =>
    rw [forEach]
    rcases hf i log M h with ⟨hrc, hh, hall⟩ | ⟨hrc, hh, q, hq, hfail⟩
    · generalize f i log = o at hrc hh
      obtain ⟨rc, log'⟩ := o
      obtain rfl : rc = 0 := hrc
      dsimp only at hh ⊢
      rw [if_neg (by simp)]
      rcases ih (i + 1) hh with ⟨hrc, hi, hh', hall'⟩ | ⟨hrc, d, hd, hi, hh', q, hq, hfail⟩
      · refine Or.inl ⟨hrc, by omega, ?_, fun d hd q hq ↦ ?_⟩
        · rw [List.range'_succ, List.flatMap_cons]
          exact holds_append hh'
        · cases d with
          | zero => exact hall q hq
          | succ d => exact hall' d (by omega) q (by rwa [Nat.add_assoc, Nat.add_comm 1 d])
      · refine Or.inr ⟨hrc, d + 1, by omega, by omega, ?_, q, ?_, hfail⟩
        · rw [List.range'_succ, List.flatMap_cons]
          exact holds_append hh'
        · rwa [Nat.add_assoc, Nat.add_comm 1 d] at hq
    · generalize f i log = o at hrc hh
      obtain ⟨rc, log'⟩ := o
      dsimp only at hrc hh ⊢
      rw [if_pos hrc.ne]
      exact Or.inr ⟨hrc, 0, by omega, rfl, holds_empty.1 hh, q, hq, hfail⟩

/-- Every thread that has been started is joined. -/
theorem joinStarted_all (hjoin : ∀ i, e.joins i = true) (k : Nat)
    (h : Holds log (↑((List.range k).map Res.worker) + M)) :
    (joinStarted e k log).1 = 0 ∧ Holds (joinStarted e k log).2.2 M := by
  have hloop : ∀ k i log, Holds log (Multiset.ofList ((List.range' i k).map Res.worker) + M) →
      ∀ o, forEach (fun i log ↦ if e.joins i then (0, release [.worker i] log) else (1, log)) k i log = o →
        o.1 = 0 ∧ Holds o.2.2 M := by
    intro k
    induction k with
    | zero =>
      rintro i log h o rfl
      exact ⟨rfl, holds_empty.2 h⟩
    | succ k ih =>
      rintro i log h o rfl
      rw [forEach, hjoin]
      refine ih (i + 1) _ ?_ _ rfl
      rw [List.range'_succ, List.map_cons, ← Multiset.cons_coe, Multiset.cons_add] at h
      exact h.gave
  exact hloop k 0 log (by rwa [← List.range_eq_range']) _ rfl

/-- The resources of the broadcast feed list. -/
def feedsMade (n : Nat) : List Res := if n = 0 then [] else .feedTable :: (List.range n).map .feed

/-- `copy_broadcast_feeds` keeps the strings it has copied when a later one fails. -/
theorem Env.copyBroadcastFeeds_cases (n : Nat) (h : Holds log M) :
    ((e.copyBroadcastFeeds n log).1 = 0 ∧
      Holds (e.copyBroadcastFeeds n log).2 (Multiset.ofList (feedsMade n) + M) ∧
      ∀ q ∈ feedsMade n, e.fails q = false) ∨
    ((e.copyBroadcastFeeds n log).1 < 0 ∧ ∃ d,
      Holds (e.copyBroadcastFeeds n log).2 (Multiset.ofList ((List.range d).map Res.feed) + M) ∧
      (d = 0 ∧ e.fails .feedTable = true ∨ e.fails (.feed d) = true)) := by
  rw [Env.copyBroadcastFeeds, feedsMade]
  by_cases hn : n = 0
  · rw [if_pos hn, if_pos hn]
    exact Or.inl ⟨rfl, holds_empty.1 h, by simp⟩
  rw [if_neg hn, if_neg hn]
  obtain ⟨ha, hf⟩ | ⟨ha, hf⟩ := e.acquire_cases .feedTable log <;> rw [ha]
  · exact Or.inr ⟨enomem_neg, 0, holds_empty.1 h, Or.inl ⟨rfl, hf⟩⟩
  have h₁ := holds_got (holds_empty.1 h) .feedTable
  generalize log ++ [.got .feedTable] = log at h₁
  dsimp only
  have hstr : ∀ i log, e.Tries [.feed i] log
      ((e.acquire (.feed i) log).elim (enomem, log) fun log ↦ (0, log)) := by
    intro i log M h
    obtain ⟨ha, hf⟩ | ⟨ha, hf⟩ := e.acquire_cases (.feed i) log <;> rw [ha]
    · exact Or.inr ⟨enomem_neg, h, _, by simp, hf⟩
    · exact Or.inl ⟨rfl, holds_got (holds_empty.1 h) _, by simpa using hf⟩
  have hmap : ∀ k, (List.range' 0 k).flatMap (fun i ↦ [Res.feed i]) = (List.range k).map Res.feed :=
    fun k ↦ by rw [← List.map_eq_flatMap, List.range_eq_range']
  have hloop := forEach_tries hstr n 0 h₁
  generalize forEach (fun i log ↦ (e.acquire (.feed i) log).elim (enomem, log) fun log ↦ (0, log)) n 0 log
    = o at hloop ⊢
  obtain ⟨rc, i, log'⟩ := o
  dsimp only at hloop ⊢
  rcases hloop with ⟨rfl, -, hh, hall⟩ | ⟨hrc, d, hd, -, hh, q, hq, hfail⟩
  · rw [if_neg (by simp)]
    refine Or.inl ⟨rfl, ?_, ?_⟩
    · rw [hmap] at hh
      exact holds_append hh
    · rintro q (_ | ⟨_, hq⟩)
      · exact hf
      · obtain ⟨i, hi, rfl⟩ := List.mem_map.mp hq
        exact hall i (List.mem_range.mp hi) _ (by simp)
  · rw [if_pos hrc.ne]
    refine Or.inr ⟨enomem_neg, d, ?_, Or.inr ?_⟩
    · rw [hmap, ← Multiset.add_assoc, Multiset.add_comm (Multiset.ofList (List.map _ _)),
        Multiset.add_assoc] at hh
      have hnone : release ((List.range 0).map Res.feed) log' = log' := List.append_nil log'
      rw [freeBroadcastFeeds, if_pos rfl, hnone]
      exact holds_release hh (.refl _)
    · rw [List.mem_singleton.mp hq, Nat.zero_add] at hfail
      exact hfail

end Loops

/-! ## What a failure leaves -/

section Verdict

variable {e : Env} {c : Config} {log : Book} {M : Multiset Res} {rc : Int} {l l' : List Res}

/-- The mutexes, the condition variable and the pool itself. -/
def baseMade : List Res := [.pool, .lifeMu, .lifeCv, .metricsMu]

/-- What `awp_pool_create` acquires for a configuration, in order. -/
def Config.acquisitions (c : Config) : List Res :=
  baseMade ++ (feedsMade c.broadcastFeeds.length ++ (framePoolMade ++ ([.workers, .metricsBuf] ++
    ((List.range c.nWorkers).flatMap ringMade ++ ((List.range c.nWorkers).map .worker ++
      if c.enableSupervisor then [.supervisor] else [])))))

/-- The acquisitions whose failure loses something: a string of the feed list after the first, and
either of the two arrays. -/
def Res.leaks : Res → Bool
  | .feed (_ + 1) | .workers | .metricsBuf => true
  | _ => false

/-- What is held at each cleanup label, above `M`. -/
def heldMu (M : Multiset Res) : Multiset Res := ↑baseMade + M

def heldFeeds (c : Config) (M : Multiset Res) : Multiset Res :=
  ↑(feedsMade c.broadcastFeeds.length) + heldMu M

def heldFrames (c : Config) (M : Multiset Res) : Multiset Res := ↑framePoolMade + heldFeeds c M

def heldRings (c : Config) (rings : Nat) (M : Multiset Res) : Multiset Res :=
  Multiset.ofList ((List.range rings).flatMap ringMade) +
    (Multiset.ofList [.workers, .metricsBuf] + heldFrames c M)

theorem failMu_holds (h : Holds log (heldMu M)) : Holds (failMu rc log).log M :=
  holds_release h (by decide)

theorem failFeeds_holds (h : Holds log (heldFeeds c M)) : Holds (failFeeds c rc log).log M := by
  rw [failFeeds]
  rw [heldFeeds] at h
  refine failMu_holds ?_
  rw [freeBroadcastFeeds]
  by_cases hn : c.broadcastFeeds.length = 0
  · rw [if_neg (by simpa using hn)]
    rw [feedsMade, if_pos hn] at h
    exact holds_empty.2 h
  · rw [if_pos (by simpa using hn)]
    rw [feedsMade, if_neg hn, ← Multiset.cons_coe, Multiset.cons_add, ← Multiset.add_cons] at h
    exact (h.gaves).gave

theorem failFrames_holds (h : Holds log (heldFrames c M)) : Holds (failFrames c rc log).log M :=
  failFeeds_holds (holds_release h (by decide))

theorem failWorkers_holds {rings : Nat} (h : Holds log (heldRings c rings M)) :
    Holds (failWorkers c rc rings log).log M :=
  failFrames_holds (holds_release
    (holds_release h (List.Perm.flatMap_left _ fun i _ ↦ ringDestroyed_perm i)) (.refl _))

theorem failRunning_holds (rc : Int) (hjoin : ∀ i, e.joins i = true) {started : Nat}
    (h : Holds log (↑((List.range started).map Res.worker) + heldRings c c.nWorkers M)) :
    (failRunning e c rc started log).rc = rc ∧ (failRunning e c rc started log).out = false ∧
      Holds (failRunning e c rc started log).log M := by
  have hjoined := joinStarted_all hjoin started h
  rw [failRunning]
  generalize joinStarted e started log = o at hjoined
  obtain ⟨joined, i, log'⟩ := o
  obtain ⟨rfl, hh⟩ := hjoined
  dsimp only
  rw [if_neg (not_not_intro rfl)]
  exact ⟨rfl, rfl, failWorkers_holds hh⟩

/-- The pool has been made; or the call has failed and left nothing behind, after a failure that
loses nothing or that of both arrays; or it has failed and something is left. -/
def Env.Verdict (e : Env) (l : List Res) (o : Outcome) : Prop :=
  (o.rc = 0 ∧ o.out = true ∧ ∀ q ∈ l, e.fails q = false) ∨
  (o.rc < 0 ∧ o.out = false ∧
    ((Holds o.log 0 ∧ ((∃ q, q.leaks = false ∧ e.fails q = true) ∨
        (e.fails .workers = true ∧ e.fails .metricsBuf = true))) ∨
      ∃ r M, Holds o.log (r ::ₘ M) ∧ ∃ q, q.leaks = true ∧ e.fails q = true))

theorem Env.Verdict.append {o : Outcome} (h : e.Verdict l' o) (hl : ∀ q ∈ l, e.fails q = false) :
    e.Verdict (l ++ l') o := by
  rcases h with ⟨hrc, hout, hall⟩ | h
  · refine Or.inl ⟨hrc, hout, fun q hq ↦ ?_⟩
    rcases List.mem_append.mp hq with hq | hq
    · exact hl q hq
    · exact hall q hq
  · exact Or.inr h

/-- A failure that loses nothing, cleaned up. -/
theorem Env.Verdict.clean {o : Outcome} (hrc : o.rc < 0) (hout : o.out = false) (h : Holds o.log 0)
    {q : Res} (hq : q.leaks = false) (hfail : e.fails q = true) : e.Verdict l o :=
  Or.inr ⟨hrc, hout, Or.inl ⟨h, Or.inl ⟨q, hq, hfail⟩⟩⟩

theorem ringMade_leaks {i : Nat} {q : Res} (h : q ∈ ringMade i) : q.leaks = false := by
  simp only [ringMade, List.mem_cons, List.not_mem_nil, or_false] at h
  rcases h with rfl | rfl | rfl | rfl <;> rfl

theorem framePoolMade_leaks {q : Res} (h : q ∈ framePoolMade) : q.leaks = false := by
  simp only [framePoolMade, List.mem_cons, List.not_mem_nil, or_false] at h
  rcases h with rfl | rfl | rfl | rfl <;> rfl

theorem createThreads_verdict (hjoin : ∀ i, e.joins i = true)
    (h : Holds log (heldRings c c.nWorkers 0)) :
    e.Verdict ((List.range c.nWorkers).map .worker ++ if c.enableSupervisor then [.supervisor] else [])
      (createThreads e c log) := by
  have hloop := forEach_tries (e := e) (fun i log ↦ Env.workerStart_tries i) c.nWorkers 0 h
  have hmap : ∀ k, (List.range' 0 k).flatMap (fun i ↦ [Res.worker i]) = (List.range k).map Res.worker :=
    fun k ↦ by rw [← List.map_eq_flatMap, List.range_eq_range']
  rw [createThreads]
  generalize forEach e.workerStart c.nWorkers 0 log = o at hloop ⊢
  obtain ⟨rc, started, log'⟩ := o
  dsimp only at hloop ⊢
  rcases hloop with ⟨rfl, rfl, hh, hall⟩ | ⟨hrc, d, hd, rfl, hh, q, hq, hfail⟩
  · rw [hmap] at hh
    rw [if_neg (not_not_intro rfl)]
    refine Env.Verdict.append ?_ fun q hq ↦ ?_
    · split
      · obtain ⟨ha, hf⟩ | ⟨ha, hf⟩ := e.acquire_cases .supervisor log' <;> rw [ha]
        · rw [Nat.zero_add]
          obtain ⟨hrc, hout, hz⟩ := failRunning_holds (-e.err) hjoin hh
          exact .clean (hrc.trans_lt e.err_neg) hout hz (q := .supervisor) rfl hf
        · exact Or.inl ⟨rfl, rfl, by simpa using hf⟩
      · exact Or.inl ⟨rfl, rfl, by simp⟩
    · obtain ⟨i, hi, rfl⟩ := List.mem_map.mp hq
      simpa using hall i (List.mem_range.mp hi)
  · rw [hmap] at hh
    rw [if_pos hrc.ne, Nat.zero_add]
    obtain ⟨hrc', hout, hz⟩ := failRunning_holds rc hjoin hh
    rw [List.mem_singleton.mp hq] at hfail
    exact .clean (hrc'.trans_lt hrc) hout hz (q := .worker (0 + d)) rfl hfail

theorem createWorkers_verdict (hjoin : ∀ i, e.joins i = true)
    (h : Holds log (heldFrames c 0)) :
    e.Verdict ([.workers, .metricsBuf] ++ ((List.range c.nWorkers).flatMap ringMade ++
      ((List.range c.nWorkers).map .worker ++ if c.enableSupervisor then [.supervisor] else [])))
      (createWorkers e c log) := by
  -- one array without the other is not looked at by the cleanup
  have hlost : ∀ r log', Holds log' (r ::ₘ heldFrames c 0) →
      Holds (failFrames c enomem log').log (r ::ₘ 0) := by
    intro r log' h'
    refine failFrames_holds ?_
    rwa [heldFrames, heldFeeds, heldMu, Multiset.add_cons, Multiset.add_cons, Multiset.add_cons]
  rw [createWorkers]
  obtain ⟨ha, hf⟩ | ⟨ha, hf⟩ := e.acquire_cases .workers log <;> rw [ha]
  · rw [Option.getD_none]
    obtain ⟨ha', hf'⟩ | ⟨ha', hf'⟩ := e.acquire_cases .metricsBuf log <;> rw [ha']
    · exact Or.inr ⟨enomem_neg, rfl, Or.inl ⟨failFrames_holds h, Or.inr ⟨hf, hf'⟩⟩⟩
    · exact Or.inr ⟨enomem_neg, rfl, Or.inr ⟨_, 0, hlost .metricsBuf _ h.got, .workers, rfl, hf⟩⟩
  have h₁ := h.got (r := .workers)
  rw [Option.getD_some]
  generalize log ++ [.got .workers] = log at h₁
  obtain ⟨ha', hf'⟩ | ⟨ha', hf'⟩ := e.acquire_cases .metricsBuf log <;> rw [ha']
  · exact Or.inr ⟨enomem_neg, rfl, Or.inr ⟨_, 0, hlost .workers _ h₁, .metricsBuf, rfl, hf'⟩⟩
  have h₂ : Holds (log ++ [.got .metricsBuf])
      (Multiset.ofList [.workers, .metricsBuf] + heldFrames c 0) := by
    have hswap := h₁.got (r := .metricsBuf)
    rwa [Multiset.cons_swap] at hswap
  generalize log ++ [.got .metricsBuf] = log at h₂
  dsimp only
  have hloop := forEach_tries (e := e) (fun i log ↦ Env.ringInit_tries i) c.nWorkers 0 h₂
  generalize forEach e.ringInit c.nWorkers 0 log = o at hloop ⊢
  obtain ⟨rc, rings, log'⟩ := o
  dsimp only at hloop ⊢
  refine Env.Verdict.append ?_ (by simp [hf, hf'])
  rcases hloop with ⟨rfl, rfl, hh, hall⟩ | ⟨hrc, d, hd, rfl, hh, q, hq, hfail⟩
  · rw [if_neg (not_not_intro rfl)]
    refine (createThreads_verdict hjoin ?_).append fun q hq ↦ ?_
    · rwa [← List.range_eq_range'] at hh
    · obtain ⟨i, hi, hq⟩ := List.mem_flatMap.mp hq
      exact hall i (List.mem_range.mp hi) q (by rwa [Nat.zero_add])
  · rw [if_pos hrc.ne, Nat.zero_add]
    rw [← List.range_eq_range'] at hh
    exact .clean hrc rfl (failWorkers_holds hh) (ringMade_leaks hq) hfail

end Verdict

section Whole

variable {e : Env} {c : Config} {log : Book}

theorem createFeeds_verdict (hjoin : ∀ i, e.joins i = true) (h : Holds log (heldMu 0)) :
    e.Verdict (feedsMade c.broadcastFeeds.length ++ (framePoolMade ++ ([.workers, .metricsBuf] ++
      ((List.range c.nWorkers).flatMap ringMade ++ ((List.range c.nWorkers).map .worker ++
        if c.enableSupervisor then [.supervisor] else []))))) (createFeeds e c log) := by
  have hcopy := e.copyBroadcastFeeds_cases c.broadcastFeeds.length h
  rw [createFeeds]
  generalize e.copyBroadcastFeeds c.broadcastFeeds.length log = o at hcopy
  obtain ⟨rc, log'⟩ := o
  dsimp only at hcopy ⊢
  rcases hcopy with ⟨rfl, hh, hall⟩ | ⟨hrc, d, hh, hfail⟩
  · rw [if_neg (not_not_intro rfl)]
    refine Env.Verdict.append ?_ hall
    have hframes := e.framePoolInit_tries log' _ hh
    generalize e.framePoolInit log' = o at hframes
    obtain ⟨rc, log''⟩ := o
    dsimp only at hframes ⊢
    rcases hframes with ⟨rfl, hh', hall'⟩ | ⟨hrc, hh', q, hq, hfail⟩
    · rw [if_neg (not_not_intro rfl)]
      exact (createWorkers_verdict hjoin hh').append hall'
    · rw [if_pos hrc.ne]
      exact .clean hrc rfl (failFeeds_holds hh') (framePoolMade_leaks hq) hfail
  · rw [if_pos hrc.ne]
    have hleft : Holds (failMu rc log').log (Multiset.ofList ((List.range d).map Res.feed)) := by
      refine failMu_holds ?_
      rwa [heldMu, Multiset.add_zero, Multiset.add_comm] at hh
    rcases hfail with ⟨rfl, hfail⟩ | hfail
    · exact .clean hrc rfl hleft (q := .feedTable) rfl hfail
    · cases d with
      | zero => exact .clean hrc rfl hleft (q := .feed 0) rfl hfail
      | succ d =>
        rw [List.range_succ_eq_map, List.map_cons, ← Multiset.cons_coe] at hleft
        exact Or.inr ⟨hrc, rfl, Or.inr ⟨_, _, hleft, .feed (d + 1), rfl, hfail⟩⟩

theorem poolCreate_verdict (hjoin : ∀ i, e.joins i = true) :
    e.Verdict c.acquisitions (poolCreate e c) := by
  rw [poolCreate, Config.acquisitions]
  obtain ⟨ha, hf⟩ | ⟨ha, hf⟩ := e.acquire_cases .pool [] <;> rw [ha]
  · exact .clean enomem_neg rfl .nil (q := .pool) rfl hf
  have h₁ := holds_got (holds_empty.1 Holds.nil) .pool
  generalize ([] : Book) ++ [.got .pool] = log at h₁
  dsimp only
  obtain ⟨ha₂, hf₂⟩ | ⟨ha₂, hf₂⟩ := e.acquire_cases .lifeMu log <;> rw [ha₂]
  · exact .clean enomem_neg rfl (holds_release h₁ (by decide)) (q := .lifeMu) rfl hf₂
  have h₂ := holds_got h₁ .lifeMu
  generalize log ++ [.got .lifeMu] = log at h₂
  dsimp only
  obtain ⟨ha₃, hf₃⟩ | ⟨ha₃, hf₃⟩ := e.acquire_cases .lifeCv log <;> rw [ha₃]
  · exact .clean enomem_neg rfl (holds_release h₂ (by decide)) (q := .lifeCv) rfl hf₃
  have h₃ := holds_got h₂ .lifeCv
  generalize log ++ [.got .lifeCv] = log at h₃
  dsimp only
  obtain ⟨ha₄, hf₄⟩ | ⟨ha₄, hf₄⟩ := e.acquire_cases .metricsMu log <;> rw [ha₄]
  · exact .clean enomem_neg rfl (holds_release h₃ (by decide)) (q := .metricsMu) rfl hf₄
  · exact (createFeeds_verdict hjoin (holds_got h₃ .metricsMu)).append
      (by simp [baseMade, hf, hf₂, hf₃, hf₄])

/-- The call has failed, and nothing of it is left. -/
structure Outcome.Nothing (o : Outcome) : Prop where
  code : o.rc < 0
  out : o.out = false
  settled : Holds o.log 0

/-- **All or nothing.**  When one acquisition fails, `awp_pool_create` fails and has released what it
has acquired, exactly once and nothing else; but for the strings of the broadcast list after the
first and for the two arrays, whose failure leaves something behind. -/
theorem create_all_or_nothing {q : Res} (hq : q ∈ c.acquisitions)
    (hone : ∀ r, e.fails r = true ↔ r = q) (hjoin : ∀ i, e.joins i = true) :
    (poolCreate e c).Nothing ↔ q.leaks = false := by
  have hfail := (hone q).mpr rfl
  rcases poolCreate_verdict (c := c) hjoin with ⟨-, -, hall⟩ | ⟨hrc, hout, h⟩
  · rw [hall q hq] at hfail
    cases hfail
  rcases h with ⟨hh, ⟨r, hr, hf⟩ | ⟨hw, hm⟩⟩ | ⟨r, M, hh, r', hr', hf⟩
  · rw [(hone r).mp hf] at hr
    exact ⟨fun _ ↦ hr, fun _ ↦ ⟨hrc, hout, hh⟩⟩
  · -- one failure is not that of both arrays
    cases ((hone _).mp hw).trans ((hone _).mp hm).symm
  · rw [(hone r').mp hf] at hr'
    refine ⟨fun h ↦ ?_, fun hl ↦ ?_⟩
    · exact absurd (hh.unique h.settled) (Multiset.cons_ne_zero)
    · rw [hl] at hr'
      cases hr'

/-- Only `q` fails. -/
def Env.one (q : Res) : Env := ⟨fun r ↦ decide (r = q), fun _ ↦ true, 11, by decide⟩

/-- The condition variable of the first ring fails. -/
theorem create_all_or_nothing_ringCv : (poolCreate (.one (.ringCv 0)) .small).Nothing :=
  (create_all_or_nothing (q := .ringCv 0) (by decide) (fun r ↦ by simp [Env.one]) fun _ ↦ rfl).mpr rfl

/-- The second string of a list of two cannot be copied: the first is lost. -/
theorem create_loses_string : ∃ c q, q ∈ Config.acquisitions c ∧ ¬ (poolCreate (.one q) c).Nothing :=
  ⟨{ Config.small with broadcastFeeds := [.empty, .empty] }, .feed 1, by decide,
    fun h ↦ absurd h.settled (by decide)⟩

end Whole

end Awp
