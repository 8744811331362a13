import AsyncWorkerPool.Memory.Arena

/-!
# Reset — rounds of the same requests

A per-tick loop makes the same requests in every round and resets the arena after it.
`awp_arena_reset` empties every chunk, but `awp_arena_alloc` looks at the head of the list only, and
the head is the chunk that was obtained last.
-/

open Foundation

namespace Awp

/-- The arguments of a call of `awp_arena_alloc`. -/
structure Request where
  size : UInt64
  alignment : UInt64
  deriving DecidableEq

/-- What the allocator comes back with during one call. -/
structure Answer where
  mem₁ : Option UInt64
  mem₂ : Option UInt64

/-- The calls of `awp_arena_alloc` for the requests `s`; nothing if one of them returns NULL. -/
def Arena.serve (a : Arena) : List Request → (Nat → Answer) → Option Arena
  | [], _ => some a
  | r :: s, answer =>
    match a.alloc r.size r.alignment (answer 0).mem₁ (answer 0).mem₂ with
    | (_, none) => none
    | (a', some _) => a'.serve s fun i ↦ answer (i + 1)

/-- `n` rounds of the requests and `awp_arena_reset`. -/
def Arena.rounds (a : Arena) (s : List Request) (answer : Nat → Nat → Answer) : Nat → Option Arena
  | 0 => some a
  | n + 1 => ((a.rounds s answer n).bind fun a' ↦ a'.serve s (answer n)).map Arena.reset

/-- The memory that the arena holds. -/
def Arena.held (a : Arena) : Nat := (a.chunks.map Chunk.bytes).sum

/-- Both tests of `awp_arena_alloc` pass in the chunk. -/
def Chunk.fits (c : Chunk) (size alignment : UInt64) : Bool :=
  !(c.offset + size + alignment > c.capacity) && !c.lacks size alignment

/-- The requests go into the chunk one behind the other. -/
def Chunk.takes (c : Chunk) : List Request → Bool
  | [] => true
  | r :: s =>
    c.fits r.size (effective r.alignment) &&
      Chunk.takes { c with offset := c.offset + (c.padding (effective r.alignment) + r.size) } s

/-- All of the requests go into the empty head of the list. -/
def Arena.takes (a : Arena) (s : List Request) : Bool :=
  match a.chunks with
  | [] => s.isEmpty
  | c :: _ => Chunk.takes { c with offset := 0 } s

section Rounds

variable {a a' : Arena} {c d : Chunk} {rest : List Chunk} {size al alignment min p : UInt64}
  {mem mem₁ mem₂ : Option UInt64} {s : List Request}

/-! ## What one call does to the memory held -/

theorem newChunk_bytes (h : newChunk min mem = some d) : 0 < d.bytes := by
  obtain ⟨m, rfl, rfl⟩ := Option.map_eq_some_iff.mp h
  have hbytes := chunkBytes_toNat (chunkCapacity_le min)
  show 0 < (chunkBytes (chunkCapacity min)).toNat
  omega

@[simp] theorem Arena.take_held :
    (a.take c rest size al).held = c.bytes + (rest.map Chunk.bytes).sum := rfl

theorem Arena.take_held_of (hchunks : a.chunks = c :: rest) :
    (a.take c rest size al).held = a.held := by
  rw [Arena.take_held, Arena.held, hchunks, List.map_cons, List.sum_cons]

/-- The chunk that is looked at is the old head with room by the first test, or one more in front
of a head without. -/
theorem Arena.room_cases (h : a.room size al mem = some (c, rest)) :
    (a.chunks = c :: rest ∧ ¬ c.offset + size + al > c.capacity) ∨
      (rest = a.chunks ∧ newChunk (a.needed size) mem = some c ∧
        ∀ c' rest', a.chunks = c' :: rest' → c'.offset + size + al > c'.capacity) := by
  rw [Arena.room] at h
  cases hchunks : a.chunks with
  | nil =>
    rw [hchunks] at h
    obtain ⟨d, hnew, he⟩ := Option.map_eq_some_iff.mp h
    cases he
    exact .inr ⟨rfl, hnew, fun _ _ h ↦ by cases h⟩
  | cons c' rest' =>
    rw [hchunks] at h
    dsimp only at h
    split at h
    · rename_i hfull
      obtain ⟨d, hnew, he⟩ := Option.map_eq_some_iff.mp h
      cases he
      refine .inr ⟨rfl, hnew, fun _ _ h ↦ ?_⟩
      cases h
      exact hfull
    · rename_i hroom
      cases h
      exact .inl ⟨rfl, hroom⟩

/-- A call that succeeds takes the block from the head where that has room, and obtains memory
otherwise. -/
theorem Arena.alloc_cases (h : a.alloc size alignment mem₁ mem₂ = (a', some p)) :
    (∃ c rest, a.chunks = c :: rest ∧ c.fits size (effective alignment) = true ∧
        a' = a.take c rest size (effective alignment)) ∨
      ((∀ c rest, a.chunks = c :: rest → c.fits size (effective alignment) = false) ∧
        a.held < a'.held) := by
  rw [Arena.alloc] at h
  split at h
  · cases h
  cases hroom : a.room size (effective alignment) mem₁ with
  | none =>
    rw [hroom] at h
    cases h
  | some x =>
    obtain ⟨c, rest⟩ := x
    rw [hroom] at h
    dsimp only at h
    rcases Arena.room_cases hroom with ⟨hchunks, htest⟩ | ⟨rfl, hnew, hfull⟩
    · cases hlacks : c.lacks size (effective alignment) with
      | false =>
        rw [hlacks, if_neg Bool.false_ne_true] at h
        cases h
        exact .inl ⟨c, rest, hchunks, by simp [Chunk.fits, hlacks, htest], rfl⟩
      | true =>
        -- the first test passes, and only the padding shows that the block is too large
        rw [hlacks, if_pos rfl] at h
        refine .inr ⟨fun c' rest' h' ↦ ?_, ?_⟩
        · cases hchunks.symm.trans h'
          simp [Chunk.fits, hlacks]
        · cases hnew : newChunk size mem₂ with
          | none =>
            rw [hnew] at h
            cases h
          | some d =>
            rw [hnew] at h
            cases h
            have hpos := newChunk_bytes hnew
            rw [Arena.take_held]
            simp only [Arena.held, hchunks, List.map_cons, List.sum_cons]
            omega
    · have hpos := newChunk_bytes hnew
      refine .inr ⟨fun c' rest' h' ↦ by simp [Chunk.fits, hfull c' rest' h'], ?_⟩
      split at h
      · cases hded : newChunk size mem₂ with
        | none =>
          rw [hded] at h
          cases h
        | some d =>
          rw [hded] at h
          cases h
          rw [Arena.take_held, List.map_cons, List.sum_cons, Arena.held]
          omega
      · cases h
        rw [Arena.take_held, Arena.held]
        omega

theorem Arena.alloc_held_le (h : a.alloc size alignment mem₁ mem₂ = (a', some p)) :
    a.held ≤ a'.held := by
  rcases Arena.alloc_cases h with ⟨c, rest, hchunks, -, rfl⟩ | ⟨-, hlt⟩
  · exact (Arena.take_held_of hchunks).ge
  · exact hlt.le

/-- Where both tests pass in the head, the call needs no answer of the allocator. -/
theorem Arena.alloc_of_fits (hchunks : a.chunks = c :: rest) (hsize : size ≠ 0)
    (h : c.fits size (effective alignment) = true) (mem₁ mem₂ : Option UInt64) :
    a.alloc size alignment mem₁ mem₂ =
      (a.take c rest size (effective alignment), some (alignUp c.cur (effective alignment))) := by
  simp only [Chunk.fits, Bool.and_eq_true, Bool.not_eq_true', decide_eq_false_iff_not] at h
  have hroom : a.room size (effective alignment) mem₁ = some (c, rest) := by
    simp only [Arena.room, hchunks, if_neg h.1]
  simp only [Arena.alloc, if_neg hsize, hroom, h.2, Bool.false_eq_true, if_false]

/-! ## A round -/

theorem Arena.serve_cons {r : Request} {answer : Nat → Answer} :
    a.serve (r :: s) answer = some a' ↔ ∃ b p,
      a.alloc r.size r.alignment (answer 0).mem₁ (answer 0).mem₂ = (b, some p) ∧
        b.serve s (fun i ↦ answer (i + 1)) = some a' := by
  rw [Arena.serve]
  rcases a.alloc r.size r.alignment (answer 0).mem₁ (answer 0).mem₂ with ⟨b, _ | p⟩
  · simp
  · simp

theorem Arena.serve_held_le {answer : Nat → Answer} (h : a.serve s answer = some a') :
    a.held ≤ a'.held := by
  induction s generalizing a answer with
  | nil => cases h; exact le_rfl
  | cons r s ih =>
    rw [Arena.serve_cons] at h
    obtain ⟨b, p, halloc, hrest⟩ := h
    exact (Arena.alloc_held_le halloc).trans (ih hrest)

/-- NULL is the answer to a request for no bytes. -/
theorem Arena.serve_sizes {answer : Nat → Answer} (h : a.serve s answer = some a') :
    ∀ r ∈ s, r.size ≠ 0 := by
  induction s generalizing a answer with
  | nil => nofun
  | cons r s ih =>
    rw [Arena.serve_cons] at h
    obtain ⟨b, p, halloc, hrest⟩ := h
    rintro r' (_ | ⟨_, hr'⟩) hzero
    · rw [Arena.alloc, if_pos hzero] at halloc
      cases halloc
    · exact ih hrest r' hr' hzero

/-- Requests that go into the head are served from it, and a reset gives the arena back. -/
theorem Arena.serve_of_takes (hchunks : a.chunks = c :: rest) (hsize : ∀ r ∈ s, r.size ≠ 0)
    (h : c.takes s = true) (answer : Nat → Answer) :
    ∃ a', a.serve s answer = some a' ∧ a'.reset = a.reset := by
  induction s generalizing a c answer with
  | nil => exact ⟨a, rfl, rfl⟩
  | cons r s ih =>
    rw [Chunk.takes, Bool.and_eq_true] at h
    have halloc := Arena.alloc_of_fits hchunks (hsize r List.mem_cons_self) h.1
      (answer 0).mem₁ (answer 0).mem₂
    obtain ⟨a', hserve, hreset⟩ := ih (a := a.take c rest r.size (effective r.alignment)) rfl
      (fun r' hr' ↦ hsize r' (List.mem_cons_of_mem _ hr')) h.2 fun i ↦ answer (i + 1)
    refine ⟨a', by rw [Arena.serve_cons]; exact ⟨_, _, halloc, hserve⟩, hreset.trans ?_⟩
    simp [Arena.reset, Arena.take, hchunks]

/-- A round that succeeds holds on to the memory it had, and no more, if and only if the requests go
into the head. -/
theorem Arena.serve_held_iff {answer : Nat → Answer} (hchunks : a.chunks = c :: rest)
    (h : a.serve s answer = some a') : a'.held = a.held ↔ c.takes s = true := by
  induction s generalizing a c answer with
  | nil => cases h; simp [Chunk.takes]
  | cons r s ih =>
    rw [Arena.serve_cons] at h
    obtain ⟨b, p, halloc, hrest⟩ := h
    rw [Chunk.takes, Bool.and_eq_true]
    rcases Arena.alloc_cases halloc with ⟨c', rest', hchunks', hfit, rfl⟩ | ⟨hfull, hlt⟩
    · cases hchunks.symm.trans hchunks'
      rw [← Arena.take_held_of hchunks, ih rfl hrest]
      simp [hfit]
    · have hle := Arena.serve_held_le hrest
      simp only [hfull c rest hchunks, Bool.false_eq_true, false_and, iff_false]
      omega

theorem Arena.reset_held : a.reset.held = a.held := by
  rw [Arena.held, Arena.reset, List.map_map]
  rfl

@[simp] theorem Arena.reset_reset : a.reset.reset = a.reset := by
  simp [Arena.reset, Function.comp_def]

/-- The first call of all obtains a chunk. -/
theorem Arena.serve_held_pos {r : Request} {answer : Nat → Answer} (hchunks : a.chunks = [])
    (h : a.serve (r :: s) answer = some a') : 0 < a'.held := by
  rw [Arena.serve_cons] at h
  obtain ⟨b, p, halloc, hrest⟩ := h
  have hle := Arena.serve_held_le hrest
  rcases Arena.alloc_cases halloc with ⟨c, rest, hchunks', -, -⟩ | ⟨-, hlt⟩
  · cases hchunks.symm.trans hchunks'
  · omega

/-! ## Rounds after the first one -/

/-- As long as the head takes all of the requests, a round and its reset change nothing. -/
theorem Arena.rounds_of_takes (hchunks : a.reset.chunks = c :: rest)
    (hsize : ∀ r ∈ s, r.size ≠ 0) (h : c.takes s = true) (answer : Nat → Nat → Answer) (n : Nat) :
    a.reset.rounds s answer n = some a.reset := by
  induction n with
  | zero => rfl
  | succ n ih =>
    obtain ⟨a', hserve, hreset⟩ := Arena.serve_of_takes hchunks hsize h (answer n)
    rw [Arena.rounds, ih, Option.bind_some, hserve, Option.map_some, hreset, Arena.reset_reset]

/-- A sequence of no requests is served by no chunk at all. -/
theorem Arena.rounds_nil (a : Arena) (answer : Nat → Nat → Answer) (n : Nat) :
    a.reset.rounds [] answer n = some a.reset := by
  induction n with
  | zero => rfl
  | succ n ih => simp [Arena.rounds, ih, Arena.serve]

/-- **A reset recycles the head and nothing else.**  After a first round of requests that all
succeed, every number of further rounds succeeds with the chunks there are if and only if the chunk
obtained last takes all of the requests; and otherwise even the second round, where it succeeds,
leaves the arena with more memory than the first. -/
theorem reset_recycles_iff {n : UInt64} {first : Nat → Answer}
    (h : (Arena.init n).serve s first = some a) :
    ((∀ answer k, ∃ a', a.reset.rounds s answer k = some a' ∧ a'.chunks = a.reset.chunks ∧
        a'.held = a.held) ↔ a.takes s = true) ∧
      ∀ answer a', a.reset.serve s answer = some a' → (a'.held = a.held ↔ a.takes s = true) := by
  cases hchunks : a.chunks with
  | nil =>
    have hs : s = [] := by
      cases s with
      | nil => rfl
      | cons r s =>
        have hpos := Arena.serve_held_pos rfl h
        rw [Arena.held, hchunks] at hpos
        exact absurd hpos (lt_irrefl 0)
    subst hs
    have htakes : a.takes [] = true := by rw [Arena.takes, hchunks]; rfl
    refine ⟨iff_of_true (fun answer k ↦ ?_) htakes, fun answer a' hserve ↦ iff_of_true ?_ htakes⟩
    · exact ⟨_, a.rounds_nil answer k, rfl, Arena.reset_held⟩
    · cases hserve
      exact Arena.reset_held
  | cons c rest =>
    have hreset : a.reset.chunks = { c with offset := 0 } :: rest.map ({ · with offset := 0 }) := by
      rw [Arena.reset, hchunks, List.map_cons]
    have htakes : a.takes s = Chunk.takes { c with offset := 0 } s := by rw [Arena.takes, hchunks]
    have hround : ∀ answer a', a.reset.serve s answer = some a' →
        (a'.held = a.held ↔ a.takes s = true) := fun answer a' hserve ↦ by
      rw [htakes, ← Arena.serve_held_iff hreset hserve, Arena.reset_held]
    refine ⟨⟨fun hall ↦ ?_, fun hyes answer k ↦ ?_⟩, hround⟩
    · obtain ⟨a', hrounds, -, hheld⟩ := hall (fun _ _ ↦ ⟨none, none⟩) 1
      obtain ⟨b, hserve, rfl⟩ := Option.map_eq_some_iff.mp hrounds
      exact (hround _ b hserve).mp ((Arena.reset_held).symm.trans hheld)
    · exact ⟨_, Arena.rounds_of_takes hreset (Arena.serve_sizes h) (htakes ▸ hyes) answer k, rfl,
        Arena.reset_held⟩

/-- Requests that fit one chunk of 64 KiB. -/
theorem reset_recycles_small : ∃ a,
    (Arena.init 65536).serve [⟨128, 64⟩, ⟨256, 64⟩, ⟨80, 8⟩] (fun _ ↦ ⟨some 65536, none⟩) = some a ∧
      ∀ answer k, ∃ a', a.reset.rounds [⟨128, 64⟩, ⟨256, 64⟩, ⟨80, 8⟩] answer k = some a' ∧
        a'.chunks = a.reset.chunks ∧ a'.held = a.held := by
  have hfirst : ∃ a ∈ (Arena.init 65536).serve [⟨128, 64⟩, ⟨256, 64⟩, ⟨80, 8⟩]
      (fun _ ↦ ⟨some 65536, none⟩), a.takes [⟨128, 64⟩, ⟨256, 64⟩, ⟨80, 8⟩] = true := by
    decide +kernel
  obtain ⟨a, hserve, htakes⟩ := hfirst
  exact ⟨a, hserve, (reset_recycles_iff hserve).1.mpr htakes⟩

/-- Two blocks of 40000 bytes take two chunks, and the second round obtains a third one for the
second block while the chunk at the end of the list stays empty. -/
theorem second_round_grows :
    ∃ a ∈ (Arena.init 65536).serve [⟨40000, 8⟩, ⟨40000, 8⟩]
        (fun i ↦ ⟨some (131072 * (UInt64.ofNat i + 1)), none⟩),
      ∃ a' ∈ a.reset.serve [⟨40000, 8⟩, ⟨40000, 8⟩]
          (fun i ↦ ⟨some (131072 * (UInt64.ofNat i + 3)), none⟩),
        a.held = 2 * 65624 ∧ a'.held = 3 * 65624 := by
  decide +kernel

end Rounds

end Awp
