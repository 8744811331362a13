import AsyncWorkerPool.Ring.Steps

/-!
# Types — frames, labels, configuration and routing

The data of `awp.h` and `internal.h` that the pool's functions read: frames with their arrays, C
strings, the accepted configuration, and the shard functions of `shard.c`.
-/

namespace Awp

/-- `awp_lifecycle_t`. -/
inductive Life where
  | init | running | quiescing | draining | stopped
  deriving DecidableEq, Repr

/-- `awp_wstate_t`. -/
inductive WState where
  | starting | running | exited | joined | quarantined
  deriving DecidableEq, Repr

/-! ## Error codes and limits -/

def einval : Int := -22
def edeadlk : Int := -35
def e2big : Int := -7

/-- `AWP_FEED_MAX`, `AWP_SYMBOL_MAX`, `AWP_PAYLOAD_MAX`. -/
def feedMax : Nat := 64
def symbolMax : Nat := 64
def payloadMax : Nat := 4096

/-- `AWP_FRAME_BROADCAST`. -/
def frameBroadcast : UInt32 := 1

/-! ## Strings and frames -/

/-- The bytes of a C string, without its terminator. -/
structure CString where
  bytes : List UInt8
  noNul : ∀ b ∈ bytes, b ≠ 0
  deriving DecidableEq

/-- The empty string that stands in for a `NULL` label. -/
def CString.empty : CString := ⟨[], by simp⟩

def CString.strlen (s : CString) : Nat := s.bytes.length

/-- `awp_frame_t`.  The arrays keep whatever was written to them last. -/
structure Frame where
  feed : Nat → UInt8
  symbol : Nat → UInt8
  payload : Nat → UInt8
  payloadLen : Nat
  seq : Nat
  submitNs : Nat
  shard : Nat
  flags : UInt32

/-- A frame of the zeroed slab. -/
def Frame.zero : Frame := ⟨fun _ ↦ 0, fun _ ↦ 0, fun _ ↦ 0, 0, 0, 0, 0, 0⟩

/-- `memcpy(dst, src, len)`. -/
def memcpy (dst : Nat → UInt8) (src : List UInt8) : Nat → UInt8 := fun i ↦ src.getD i (dst i)

/-- One store into a frame. -/
inductive FrameWrite where
  | feed (bytes : List UInt8)
  | symbol (bytes : List UInt8)
  | payload (bytes : List UInt8)
  | payloadLen (n : Nat)
  | seq (n : Nat)
  | submitNs (t : Nat)
  | shard (i : Nat)
  | flags (x : UInt32)
  deriving DecidableEq

/-- The labels are copied with their terminator. -/
def Frame.write (f : Frame) : FrameWrite → Frame
  | .feed bytes => { f with feed := memcpy f.feed (bytes ++ [0]) }
  | .symbol bytes => { f with symbol := memcpy f.symbol (bytes ++ [0]) }
  | .payload bytes => { f with payload := memcpy f.payload bytes }
  | .payloadLen n => { f with payloadLen := n }
  | .seq n => { f with seq := n }
  | .submitNs t => { f with submitNs := t }
  | .shard i => { f with shard := i }
  | .flags x => { f with flags := x }

/-! ## Configuration -/

/-- `awp_config_t`, as far as the pool reads it; the callbacks are the environment's. -/
structure RawConfig where
  nWorkers : UInt32
  queueCapacity : UInt32
  framePoolSize : UInt32
  ringMode : RingMode
  shutdownDeadlineMs : UInt32
  supervisorIntervalMs : UInt32
  stallThresholdMs : UInt32
  enableSupervisor : Bool
  enableRestart : Bool
  process : Bool
  onError : Bool
  nBroadcastWorkers : UInt32
  broadcastFeeds : List CString

/-- A configuration `awp_pool_create` accepts, with the fields it derives. -/
structure Config where
  nWorkers : Nat
  capacity : Capacity
  ringMode : RingMode
  shutdownDeadlineMs : Nat
  supervisorIntervalMs : Nat
  stallThresholdMs : Nat
  enableSupervisor : Bool
  enableRestart : Bool
  onError : Bool
  nBroadcastWorkers : Nat
  broadcastFeeds : List CString
  broadcast_lt : nBroadcastWorkers < nWorkers

/-- `pool->n_shard_workers`. -/
def Config.nShardWorkers (c : Config) : Nat := c.nWorkers - c.nBroadcastWorkers

theorem Config.workers_pos (c : Config) : 0 < c.nWorkers := by
  have h := c.broadcast_lt
  omega

/-- The checks at the head of `awp_pool_create`. -/
def RawConfig.accept (r : RawConfig) : Option Config :=
  if ¬ r.process then none
  else if r.nWorkers < 1 ∨ r.queueCapacity < 1 ∨ r.framePoolSize < 1 then none
  else if hb : r.nBroadcastWorkers ≥ r.nWorkers then none
  else if hc : roundUpPow2 r.queueCapacity = 0 then none
  else some
    { nWorkers := r.nWorkers.toNat
      capacity := capacityOf r.queueCapacity hc
      ringMode := r.ringMode
      shutdownDeadlineMs := r.shutdownDeadlineMs.toNat
      supervisorIntervalMs := r.supervisorIntervalMs.toNat
      stallThresholdMs := r.stallThresholdMs.toNat
      enableSupervisor := r.enableSupervisor
      enableRestart := r.enableRestart
      onError := r.onError
      nBroadcastWorkers := r.nBroadcastWorkers.toNat
      broadcastFeeds := r.broadcastFeeds
      broadcast_lt := by
        rw [ge_iff_le, UInt32.not_le] at hb
        exact UInt32.lt_iff_toNat_lt.mp hb }

/-! ## Routing -/

/-- One round of FNV-1a. -/
def fnvRound (h : UInt64) (b : UInt8) : UInt64 := (h ^^^ b.toUInt64) * 1099511628211

/-- `awp_hash_key`; `NULL` labels count as empty. -/
def hashKey (feed symbol : Option CString) : UInt64 :=
  let h := (feed.getD .empty).bytes.foldl fnvRound 14695981039346656037
  (symbol.getD .empty).bytes.foldl fnvRound (fnvRound h 0x1F)

/-- `feed_is_broadcast`. -/
def Config.feedIsBroadcast (c : Config) : Option CString → Bool
  | none => false
  | some feed => c.broadcastFeeds.any (· == feed)

/-- `awp_compute_shard`. -/
def Config.computeShard (c : Config) (feed symbol : Option CString) (flags : UInt32) : Nat :=
  let isBc := (flags &&& frameBroadcast) != 0 || c.feedIsBroadcast feed
  if isBc ∧ 0 < c.nBroadcastWorkers then
    (hashKey feed (some .empty)).toNat % c.nBroadcastWorkers
  else if c.nShardWorkers = 0 then 0
  else c.nBroadcastWorkers + (hashKey feed symbol).toNat % c.nShardWorkers

/-- The shard reduction of `awp_submit` and `awp_claim_frame`. -/
def Config.clampShard (c : Config) (shard : Nat) : Nat :=
  if c.nWorkers ≤ shard then shard % c.nWorkers else shard

/-- The shard that `awp_submit_keyed` computes from the caller's key. -/
def Config.keyedShard (c : Config) (key : UInt64) : Nat :=
  if c.nShardWorkers = 0 then 0
  else c.nBroadcastWorkers + key.toNat % c.nShardWorkers

end Awp
