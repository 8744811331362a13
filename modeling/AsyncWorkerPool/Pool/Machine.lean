import AsyncWorkerPool.Foundation.Runs
import AsyncWorkerPool.Ring.System
import AsyncWorkerPool.Pool.Api
import AsyncWorkerPool.Pool.Destroy

/-!
# Machine — the pool and everybody who works on it

The state is the pool's memory and, for every party, where it stands: its location in its own
program, and the shard and location of the ring function it is in, if any.  A step is one access
of one party; the clock moves by itself.  A run starts when `awp_pool_create` has returned, with no
created thread having moved yet.
-/

open Foundation

namespace Awp

/-- The detached helper of `awp_pthread_join_deadline`. -/
inductive HelperPc where
  | join
  | post (rc : Int)
  | done
  deriving DecidableEq

inductive Pc where
  | api (p : ApiPc)
  | shut (p : ShutPc)
  | destroy (p : DestroyPc)
  | worker (p : WorkerPc)
  | sup (p : SupPc)
  | helper (p : HelperPc)
  deriving DecidableEq

/-- A party: its program location, and the ring function it is in on shard `sh`. -/
structure Thread where
  pc : Pc
  sh : Nat
  loc : Loc Nat Nat
  deriving DecidableEq

structure Pool where
  ctl : Ctl
  dat : Dat
  ring : Nat → Ring Nat Agent Nat
  thr : Agent → Thread

/-- What happens next: the clock moves, a public call begins, a party makes its next access. -/
inductive Label where
  | tick (d : Nat)
  | call (n : Nat) (pool : Bool) (f : ApiCall)
  | shutdown (n : Nat) (tls : Bool)
  | destroy (n : Nat)
  | step (a : Agent) (x : Choice)
  deriving DecidableEq

/-- Inside a ring function. -/
def Loc.active : Loc Nat Nat → Bool
  | .idle | .held _ | .ret _ => false
  | _ => true

/-- Whether a thread has returned from its main function. -/
def Pc.ended : Pc → Bool
  | .worker .returned | .sup .returned => true
  | _ => false

/-- Whether the thread has been created. -/
def Pool.exists (c : Config) (s : Pool) : Agent → Bool
  | .api _ => true
  | .worker i k => i < c.nWorkers ∧ k < (s.ctl.w i).spawned
  | .sup => c.enableSupervisor
  | .helper h => h < s.ctl.helpers

def Pool.ended (s : Pool) (a : Agent) : Bool := (s.thr a).pc.ended

/-- `awp_join_helper`. -/
def HelperPc.next (m : Ctl) (ended : Agent → Bool) (h : Nat) (x : Choice) :
    HelperPc → Option (Ctl × HelperPc × Cmd)
  | .join =>
    match x with
    | .go => if ended (m.target h) then some (m.join (m.target h), .post 0, .stay) else none
    | .rc n => if 0 < n then some (m, .post n, .stay) else none
    | _ => none
  | .post rc => some ({ m with box := Function.update m.box h (some rc) }, .done, .stay)
  | .done => none

/-- The next access of party `a` outside the ring functions. -/
def Pool.next (c : Config) (s : Pool) (a : Agent) (x : Choice) :
    Option (Ctl × Dat × Pc × Cmd) :=
  let t := s.thr a
  match t.pc, a with
  | .api p, _ => (p.next c s.ctl s.dat t.loc x).map fun (d, p, k) ↦ (s.ctl, d, .api p, k)
  | .shut p, _ =>
    (p.next c s.ctl s.dat.activeSubmits a t.loc x).map fun (m, p, k) ↦ (m, s.dat, .shut p, k)
  | .destroy p, _ =>
    (p.next c s.ctl s.dat a t.loc x).map fun (m, p, k) ↦ (m, s.dat, .destroy p, k)
  | .worker p, .worker i _ =>
    (p.next c s.ctl i t.loc x).map fun (m, p, k) ↦ (m, s.dat, .worker p, k)
  | .sup p, _ => (p.next c s.ctl s.ended t.loc x).map fun (m, p, k) ↦ (m, s.dat, .sup p, k)
  | .helper p, .helper h =>
    (p.next s.ctl s.ended h x).map fun (m, p, k) ↦ (m, s.dat, .helper p, k)
  | _, _ => none

/-- What a step does to the party's place in the ring functions. -/
def Cmd.apply (sh : Nat) (l : Loc Nat Nat) : Cmd → Option (Nat × Loc Nat Nat)
  | .stay => some (sh, l)
  | .call sh' l' =>
    match l with
    | .idle => some (sh', l')
    | _ => none
  | .take =>
    match l with
    | .ret _ => some (sh, .idle)
    | _ => none
  | .commit frame =>
    match l with
    | .held pos => some (sh, ringCommit frame pos)
    | _ => none

/-- History: what the frame holds when `cell->sequence = pos + 1` publishes it. -/
def Dat.notePublish (c : Config) (d : Dat) (sh : Nat) : Loc Nat Nat → Dat
  | .pubSeq _ _ pos =>
    { d with
      published := Function.update d.published sh
        (Function.update (d.published sh) pos (some (d.slab sh (c.slot pos)))) }
  | _ => d

/-- The spurious failure that a choice stands for inside the ring functions. -/
def Choice.spurious : Choice → Option Bool
  | .go => some false
  | .alt => some true
  | _ => none

/-- One access of party `a` inside a ring function. -/
def Pool.access (c : Config) (s : Pool) (a : Agent) (x : Choice) : Option Pool :=
  let t := s.thr a
  x.spurious.bind fun spurious ↦
    ((s.ring t.sh).step c.capacity.val a spurious t.loc).map fun (r, l) ↦
      { s with
        dat := s.dat.notePublish c t.sh t.loc
        ring := Function.update s.ring t.sh r
        thr := Function.update s.thr a { t with loc := l } }

/-- One access of party `a` outside the ring functions. -/
def Pool.advance (c : Config) (s : Pool) (a : Agent) (x : Choice) : Option Pool :=
  let t := s.thr a
  (s.next c a x).bind fun (m, d, pc, k) ↦
    (k.apply t.sh t.loc).map fun (sh, l) ↦
      { s with ctl := m, dat := d, thr := Function.update s.thr a ⟨pc, sh, l⟩ }

/-- A public call begins: party `n` has made none yet. -/
def Pool.begin (s : Pool) (n : Nat) (pc : Pc) : Option Pool :=
  match (s.thr (.api n)).pc with
  | .api .idle => some { s with thr := Function.update s.thr (.api n) { s.thr (.api n) with pc := pc } }
  | _ => none

def Pool.step (c : Config) (s : Pool) : Label → Option Pool
  | .tick d => some { s with ctl := { s.ctl with clock := s.ctl.clock + d } }
  | .call n pool f => s.begin n (.api (f.start c pool))
  | .shutdown n tls => s.begin n (.shut (if tls then .done edeadlk else .start))
  | .destroy n => s.begin n (.destroy .cas)
  | .step a x =>
    if s.exists c a then
      if (s.thr a).loc.active then s.access c a x else s.advance c a x
    else none

/-- A worker whose thread `awp_pool_create` has just created. -/
def Worker.start (now : Nat) : Worker where
  state := .starting
  stop := false
  joined := false
  lastProgress := now
  generation := 1
  restarts := 0
  processed := 0
  processErrors := 0
  spawned := 1
  events := []
  late := false

/-- The pool that `awp_pool_create` returns at time `now`. -/
def Pool.init (c : Config) (now : Nat) : Pool where
  ctl :=
    { lifecycle := .running
      lifeMu := none
      lifeCv := 0
      shutdownWaiters := 0
      quarantined := false
      framesClosed := false
      shutdownAborts := 0
      supervisorStop := false
      supervisorAlive := false
      supervisorPhase := if c.enableSupervisor then 1 else 0
      supervisorJoined := !c.enableSupervisor
      destroyStarted := false
      processErrors := 0
      abandoned := 0
      w := fun _ ↦ .start now
      clock := now
      executor := none
      joins := fun _ ↦ 0
      helpers := 0
      target := fun _ ↦ .sup
      box := fun _ ↦ none
      drained := []
      freed := false }
  dat :=
    { submitted := 0
      dropped := 0
      seq := 0
      activeSubmits := 0
      apiRefs := 0
      slab := fun _ _ ↦ .zero
      published := fun _ _ ↦ none }
  ring := fun _ ↦ Ring.init id
  thr
    | .api _ => ⟨.api .idle, 0, .idle⟩
    | .worker _ _ => ⟨.worker .entry, 0, .idle⟩
    | .sup => ⟨.sup .phase, 0, .idle⟩
    | .helper _ => ⟨.helper .join, 0, .idle⟩

/-- Everything a step can do. -/
theorem Pool.step_cases {c : Config} {s s' : Pool} {e : Label} (h : s.step c e = some s') :
    (∃ d, e = .tick d ∧ s' = { s with ctl := { s.ctl with clock := s.ctl.clock + d } }) ∨
    (∃ n pc, (s.thr (.api n)).pc = .api .idle ∧
      ((∃ pool f, e = .call n pool f ∧ pc = .api (f.start c pool)) ∨
        (∃ tls, e = .shutdown n tls ∧ pc = .shut (if tls then .done edeadlk else .start)) ∨
        (e = .destroy n ∧ pc = .destroy .cas)) ∧
      s' = { s with thr := Function.update s.thr (.api n) { s.thr (.api n) with pc := pc } }) ∨
    (∃ a x spurious r l, e = .step a x ∧ s.exists c a = true ∧ (s.thr a).loc.active = true ∧
      x.spurious = some spurious ∧
      (s.ring (s.thr a).sh).step c.capacity.val a spurious (s.thr a).loc = some (r, l) ∧
      s' = { s with
        dat := s.dat.notePublish c (s.thr a).sh (s.thr a).loc
        ring := Function.update s.ring (s.thr a).sh r
        thr := Function.update s.thr a { s.thr a with loc := l } }) ∨
    (∃ a x m d pc k sh l, e = .step a x ∧ s.exists c a = true ∧ (s.thr a).loc.active = false ∧
      s.next c a x = some (m, d, pc, k) ∧ k.apply (s.thr a).sh (s.thr a).loc = some (sh, l) ∧
      s' = { s with ctl := m, dat := d, thr := Function.update s.thr a ⟨pc, sh, l⟩ }) := by
  have hbegin : ∀ n pc, s.begin n pc = some s' → (s.thr (.api n)).pc = .api .idle ∧
      s' = { s with thr := Function.update s.thr (.api n) { s.thr (.api n) with pc := pc } } := by
    intro n pc hb
    simp only [Pool.begin] at hb
    split at hb
    · rename_i hidle
      exact ⟨hidle, (Option.some.inj hb).symm⟩
    · cases hb
  cases e with
  | tick d => exact Or.inl ⟨d, rfl, (Option.some.inj h).symm⟩
  | call n pool f =>
    obtain ⟨hidle, rfl⟩ := hbegin n _ h
    exact Or.inr (Or.inl ⟨n, _, hidle, Or.inl ⟨pool, f, rfl, rfl⟩, rfl⟩)
  | shutdown n tls =>
    obtain ⟨hidle, rfl⟩ := hbegin n _ h
    exact Or.inr (Or.inl ⟨n, _, hidle, Or.inr (Or.inl ⟨tls, rfl, rfl⟩), rfl⟩)
  | destroy n =>
    obtain ⟨hidle, rfl⟩ := hbegin n _ h
    exact Or.inr (Or.inl ⟨n, _, hidle, Or.inr (Or.inr ⟨rfl, rfl⟩), rfl⟩)
  | step a x =>
    simp only [Pool.step] at h
    split at h
    · rename_i hex
      split at h
      · rename_i hact
        simp only [Pool.access, Option.bind_eq_some_iff, Option.map_eq_some_iff] at h
        obtain ⟨spurious, hsp, ⟨r, l⟩, hr, rfl⟩ := h
        exact Or.inr (Or.inr (Or.inl ⟨a, x, spurious, r, l, rfl, hex, hact, hsp, hr, rfl⟩))
      · rename_i hact
        simp only [Pool.advance, Option.bind_eq_some_iff, Option.map_eq_some_iff] at h
        obtain ⟨⟨m, d, pc, k⟩, hn, ⟨sh, l⟩, hk, rfl⟩ := h
        exact Or.inr (Or.inr (Or.inr
          ⟨a, x, m, d, pc, k, sh, l, rfl, hex, by simpa using hact, hn, hk, rfl⟩))
    · cases h

/-! ## Schedules -/

/-- Party `a` makes `k` accesses. -/
def turns (a : Agent) (k : Nat) : List Label := List.replicate k (.step a .go)

/-- One worker with a queue of two frames, and no supervisor. -/
def Config.small : Config where
  nWorkers := 1
  capacity := twoCells
  ringMode := .mpsc
  shutdownDeadlineMs := 10
  supervisorIntervalMs := 0
  stallThresholdMs := 0
  enableSupervisor := false
  enableRestart := false
  onError := false
  nBroadcastWorkers := 0
  broadcastFeeds := []
  broadcast_lt := by decide

/-- A frame without labels and payload. -/
def Args.bare (flags : UInt32) : Args := ⟨none, none, none, 0, flags⟩

/-- Party `n` submits such a frame to a shard with room. -/
def submits (n : Nat) (flags : UInt32) : List Label :=
  .call n true (.submit false (.bare flags)) :: turns (.api n) 30

/-- Party `n` claims a slot of shard 0. -/
def claims (n : Nat) : List Label := .call n true (.claim false 0) :: turns (.api n) 14

end Awp
