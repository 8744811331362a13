import AsyncWorkerPool.Pool.State

/-!
# Api — `awp_submit`, `awp_claim_frame`, `awp_commit_frame`, `awp_submit_keyed` and the readers

One location per access to the pool.  `awp_submit` and `awp_submit_keyed` share the locations of
the claim protocol, told apart by the `Kind` of the job; a claim and its commit are one party.
-/

namespace Awp

/-- The arguments of `awp_submit` and `awp_submit_keyed`. -/
structure Args where
  feed : Option CString
  symbol : Option CString
  payload : Option (List UInt8)
  payloadLen : Nat
  flags : UInt32
  deriving DecidableEq

/-- Whose attempt to reserve a slot it is; `ns` is the `submit_ns` that `awp_submit` retains. -/
inductive Kind where
  | submit (args : Args) (ns : Nat)
  | claim
  | keyed (args : Args)
  deriving DecidableEq

structure Job where
  kind : Kind
  sh : Nat
  spin : Nat
  /-- `awp_tls_in_callback` of the calling thread. -/
  tls : Bool
  deriving DecidableEq

/-- The loads of the admission test, in order. -/
inductive Gate where
  | lifecycle | quarantined | destroyStarted
  deriving DecidableEq

/-- What is still to be done to a reserved frame: a store, `f->seq = fetch_add(&pool->seq, 1)`, or
`f->submit_ns = awp_now_ns()`. -/
inductive Fill where
  | write (w : FrameWrite)
  | nextSeq
  | stamp
  deriving DecidableEq

/-- The calls that only look. -/
inductive Reader where
  | drops | metrics
  | shardOf (shard : Nat)
  deriving DecidableEq

inductive ApiPc where
  | idle
  | submitEnter (a : Args)
  | submitActive (a : Args)
  | submitGate (a : Args) (g : Gate)
  | retry (j : Job)
  | claimEnter (j : Job)
  | gate (j : Job) (g : Gate)
  | reserve (j : Job)
  | waitSpace (j : Job)
  | drop (j : Job)
  | activate (j : Job) (pos : Nat)
  | fill (j : Job) (pos : Nat) (ws : List Fill)
  | claimed (j : Job) (pos : Nat)
  | publish (j : Job) (pos : Nat)
  | submitted (j : Job) (pos : Nat)
  | deactivate (j : Job) (rc : Int) (slot : Option (Nat × Nat))
  | leave (j : Job) (rc : Int) (slot : Option (Nat × Nat))
  | done (rc : Int) (slot : Option (Nat × Nat))
  | readEnter (r : Reader)
  | readDropped
  | readAbandoned (dropped : Nat)
  | readLeave (v : Nat)
  | read (v : Nat)
  deriving DecidableEq

/-- The public calls that are modelled here. -/
inductive ApiCall where
  | submit (tls : Bool) (a : Args)
  | claim (tls : Bool) (shard : Nat)
  | keyed (tls : Bool) (key : UInt64) (a : Args)
  | drops
  | metrics
  | shardOf (a : Args)
  deriving DecidableEq

/-- The checks of a call before it touches the pool; `pool` tells whether the handle is not
`NULL`. -/
def ApiCall.start (c : Config) (pool : Bool) : ApiCall → ApiPc
  | .submit tls a =>
    if ¬ pool then .done einval none
    else if tls then .done edeadlk none
    else .submitEnter
      { a with feed := some (a.feed.getD .empty), symbol := some (a.symbol.getD .empty) }
  | .claim tls shard =>
    if ¬ pool then .done einval none
    else if tls then .done edeadlk none
    else .claimEnter ⟨.claim, c.clampShard shard, 0, false⟩
  | .keyed tls key a =>
    if ¬ pool then .done einval none
    else .retry ⟨.keyed a, c.clampShard (c.keyedShard key), 0, tls⟩
  | .drops => if pool then .readEnter .drops else .read 0
  | .metrics => if pool then .readEnter .metrics else .done einval none
  | .shardOf a =>
    if pool then .readEnter (.shardOf (c.computeShard a.feed a.symbol a.flags)) else .read 0

/-- The validation of `awp_submit` after `awp_api_enter`. -/
def Args.check (a : Args) : Int :=
  if feedMax < (a.feed.getD .empty).strlen ∨ symbolMax < (a.symbol.getD .empty).strlen then e2big
  else if payloadMax < a.payloadLen then e2big
  else if 0 < a.payloadLen ∧ a.payload = none then einval
  else 0

def Gate.isOpen (m : Ctl) : Gate → Bool
  | .lifecycle => m.lifecycle = .running
  | .quarantined => !m.quarantined
  | .destroyStarted => !m.destroyStarted

def Gate.next : Gate → Option Gate
  | .lifecycle => some .quarantined
  | .quarantined => some .destroyStarted
  | .destroyStarted => none

def Args.job (c : Config) (a : Args) (ns : Nat) : Job :=
  ⟨.submit a ns, c.clampShard (c.computeShard a.feed a.symbol a.flags), 0, false⟩

/-- The stores of `awp_submit` into the frame it has reserved. -/
def Args.submitFills (a : Args) (ns sh : Nat) : List Fill :=
  [.write (.feed (a.feed.getD .empty).bytes), .write (.symbol (a.symbol.getD .empty).bytes)] ++
    (if 0 < a.payloadLen then [.write (.payload ((a.payload.getD []).take a.payloadLen))] else []) ++
    [.write (.payloadLen a.payloadLen), .write (.flags a.flags), .nextSeq,
      .write (.submitNs ns), .write (.shard sh)]

/-- The stores of `awp_submit_keyed` into the frame it has claimed. -/
def Args.keyedFills (a : Args) : List Fill :=
  (a.feed.elim [] fun s ↦ [.write (.feed (s.bytes.take feedMax))]) ++
    (a.symbol.elim [] fun s ↦ [.write (.symbol (s.bytes.take symbolMax))]) ++
    (match a.payload with
      | some bytes =>
        if 0 < a.payloadLen then
          [.write (.payload (bytes.take (min a.payloadLen payloadMax))),
            .write (.payloadLen (min a.payloadLen payloadMax))]
        else [.write (.payloadLen 0)]
      | none => [.write (.payloadLen 0)]) ++
    [.write (.flags a.flags), .nextSeq]

/-- The stores of `awp_claim_frame`, and of what follows it in `awp_submit_keyed`. -/
def Job.fills (j : Job) : List Fill :=
  match j.kind with
  | .submit a ns => a.submitFills ns j.sh
  | .claim => [.write (.shard j.sh), .stamp]
  | .keyed a => [.write (.shard j.sh), .stamp] ++ a.keyedFills

/-- The admission test fails: `awp_submit` has an `active_submits` to give back. -/
def Job.reject (j : Job) (rc : Int) : ApiPc :=
  match j.kind with
  | .submit _ _ => .deactivate j rc none
  | .claim | .keyed _ => .leave j rc none

/-- The foot of the retry loop of `awp_submit_keyed`, and `dif < 0` in `awp_submit`. -/
def Job.again (j : Job) (loop : Job → ApiPc) : ApiPc :=
  if j.spin < spinBudget then loop { j with spin := j.spin + 1 } else .waitSpace j

/-- What becomes of an attempt that got no slot. -/
def Job.refused (j : Job) (v : Ret Nat Nat) : ApiPc :=
  match j.kind with
  | .submit _ _ =>
    match v with
    | .slotFull => j.again (.gate · .lifecycle)
    | .slotAhead | .slotLost => .gate j .lifecycle
    | _ => .drop j
  | .claim | .keyed _ =>
    match v with
    | .slotFull | .slotAhead | .slotLost => .leave j eagain none
    | _ => .leave j (-1) none

/-- `awp_claim_frame` or `awp_commit_frame` returns to its caller. -/
def Job.return (j : Job) (rc : Int) (slot : Option (Nat × Nat)) : ApiPc :=
  match j.kind with
  | .submit _ _ | .claim => .done rc slot
  | .keyed _ => if rc = 0 ∨ rc = -1 then .done rc slot else j.again .retry

def Dat.setFrame (d : Dat) (i slot : Nat) (f : Frame → Frame) : Dat :=
  { d with slab := Function.update d.slab i (Function.update (d.slab i) slot (f (d.slab i slot))) }

/-- One store of a fill list. -/
def Dat.fill (d : Dat) (now i slot : Nat) : Fill → Dat
  | .write w => d.setFrame i slot (·.write w)
  | .nextSeq => { d.setFrame i slot (·.write (.seq d.seq)) with seq := d.seq + 1 }
  | .stamp => d.setFrame i slot (·.write (.submitNs now))

/-- `&r->frames[pos & r->mask]`. -/
def Config.slot (c : Config) (pos : Nat) : Nat := Position.slot c.capacity.val pos

/-- The next access of a public call outside the ring functions. -/
def ApiPc.next (c : Config) (m : Ctl) (d : Dat) (l : Loc Nat Nat) (x : Choice) :
    ApiPc → Option (Dat × ApiPc × Cmd)
  | .idle | .done _ _ | .read _ => none
  | .submitEnter a =>
    some ({ d with apiRefs := d.apiRefs + 1 },
      if a.check = 0 then .submitActive a else .leave (a.job c 0) a.check none, .stay)
  | .submitActive a =>
    some ({ d with activeSubmits := d.activeSubmits + 1 }, .submitGate a .lifecycle, .stay)
  | .submitGate a g =>
    some (d,
      if g.isOpen m then
        match g.next with
        | some g' => .submitGate a g'
        | none => .gate (a.job c m.clock) .lifecycle
      else .deactivate (a.job c 0) einval none, .stay)
  | .retry j => some (d, if j.tls then j.again .retry else .claimEnter j, .stay)
  | .claimEnter j => some ({ d with apiRefs := d.apiRefs + 1 }, .gate j .lifecycle, .stay)
  | .gate j g =>
    some (d,
      if g.isOpen m then
        match g.next with
        | some g' => .gate j g'
        | none => .reserve j
      else j.reject einval, .stay)
  | .reserve j =>
    match l with
    | .idle => some (d, .reserve j, .call j.sh ringClaim)
    | .held pos =>
      some (d,
        match j.kind with
        | .submit _ _ => .fill j pos j.fills
        | .claim | .keyed _ => .activate j pos, .stay)
    | .ret v => some (d, j.refused v, .take)
    | _ => none
  | .waitSpace j =>
    match l with
    | .idle => some (d, .waitSpace j, .call j.sh ringWaitSpace)
    | .ret _ =>
      some (d,
        match j.kind with
        | .submit _ _ => .gate { j with spin := 0 } .lifecycle
        | .claim | .keyed _ => .retry { j with spin := 0 }, .take)
    | _ => none
  | .drop j => some ({ d with dropped := d.dropped + 1 }, .deactivate j (-1) none, .stay)
  | .activate j pos =>
    some ({ d with activeSubmits := d.activeSubmits + 1 }, .fill j pos j.fills, .stay)
  | .fill j pos ws =>
    match ws with
    | f :: ws => some (d.fill m.clock j.sh (c.slot pos) f, .fill j pos ws, .stay)
    | [] =>
      some (d,
        match j.kind with
        | .claim => .claimed j pos
        | .submit _ _ | .keyed _ => .publish j pos, .stay)
  | .claimed j pos =>
    match x with
    | .write w => some (d.setFrame j.sh (c.slot pos) (·.write w), .claimed j pos, .stay)
    | .commit => some (d, .publish j pos, .stay)
    | _ => none
  | .publish j pos =>
    match l with
    | .held _ => some (d, .publish j pos, .commit (c.slot pos))
    | .ret _ => some (d, .submitted j pos, .take)
    | _ => none
  | .submitted j pos =>
    some ({ d with submitted := d.submitted + 1 }, .deactivate j 0 (some (j.sh, pos)), .stay)
  | .deactivate j rc slot =>
    some ({ d with activeSubmits := d.activeSubmits - 1 }, .leave j rc slot, .stay)
  | .leave j rc slot => some ({ d with apiRefs := d.apiRefs - 1 }, j.return rc slot, .stay)
  | .readEnter r =>
    some ({ d with apiRefs := d.apiRefs + 1 },
      match r with
      | .drops | .metrics => .readDropped
      | .shardOf shard => .readLeave shard, .stay)
  | .readDropped => some (d, .readAbandoned d.dropped, .stay)
  | .readAbandoned v => some (d, .readLeave (v + m.abandoned), .stay)
  | .readLeave v => some ({ d with apiRefs := d.apiRefs - 1 }, .read v, .stay)

end Awp
