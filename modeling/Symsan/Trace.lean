import Symsan.Task

/-!
# The tracer's message stream

The read loop of `afl_custom_fuzz_count` and `handle_cond`. The stream is a
list of bytes; a `read` of `n` bytes returns the next `min n r` of the `r` that
remain and overwrites only that many bytes of its buffer, so a short read
leaves the previous message's bytes behind the new ones. Record layouts are the
spec's: a 32-byte little-endian `pipe_msg`, a `memcmp_msg` of a 4-byte label and
`result` content bytes, and a `gep_msg` of a size the source does not show,
taken as a parameter. The memcmp branch reads that record into the single
byte `make_shared<u8>(msg_size)` allocates: once `read` returns more than one
byte it has written past the object, and the model stops there.
-/

set_option autoImplicit false

namespace Symsan

/-- `n` as `width` little-endian bytes. -/
def leBytes (n : Nat) : Nat → List Nat
  | 0 => []
  | width + 1 => n % 256 :: leBytes (n / 256) width

/-- The little-endian number in the `width` bytes of `bytes` from `offset`. -/
def leValue (bytes : List Nat) (offset : Nat) : Nat → Nat
  | 0 => 0
  | width + 1 => bytes.getD offset 0 % 256 + 256 * leValue bytes (offset + 1) width

/-- Modelled from the spec: `pipe_msg`. -/
structure PipeMsg where
  msgType : Nat
  flags : Nat
  instanceId : Nat
  addr : Nat
  context : Nat
  id : Nat
  label : Nat
  result : Nat
  deriving Repr, DecidableEq

/-- `sizeof(pipe_msg)`: two 16-bit, five 32-bit and one 64-bit field. -/
def pipeMsgSize : Nat := 32

/-- `sizeof(memcmp_msg)`: the 32-bit label before the content bytes. -/
def memcmpMsgSize : Nat := 4

/-- The message a 32-byte buffer holds. -/
def PipeMsg.decode (bytes : List Nat) : PipeMsg :=
  ⟨leValue bytes 0 2, leValue bytes 2 2, leValue bytes 4 4, leValue bytes 8 4,
    leValue bytes 12 4, leValue bytes 16 4, leValue bytes 20 4, leValue bytes 24 8⟩

/-- The bytes the tracer writes for a message. -/
def PipeMsg.encode (msg : PipeMsg) : List Nat :=
  leBytes msg.msgType 2 ++ leBytes msg.flags 2 ++ leBytes msg.instanceId 4 ++
    leBytes msg.addr 4 ++ leBytes msg.context 4 ++ leBytes msg.id 4 ++ leBytes msg.label 4 ++
    leBytes msg.result 8

/-- Modelled from the spec: the message type codes, in the order the spec lists them. -/
def condType : Nat := 0

/-- Modelled from the spec: see `condType`. -/
def gepType : Nat := 1

/-- Modelled from the spec: see `condType`. -/
def memcmpType : Nat := 2

/-- What the read loop does with a record: call `handle_cond`, or read the
content of a memcmp record into a buffer too small for it, where the loop stops. -/
inductive Dispatch
  | cond (msg : PipeMsg)
  /-- `make_shared<u8>(msg_size)` allocates one byte, and `read` writes more -/
  | overflow

/-- The read loop of `afl_custom_fuzz_count` over `stream`, with `msgBytes` the
current content of its `msg` buffer, for at most `fuel` iterations. -/
def readLoop (t : LabelTable) (gepMsgSize : Nat) :
    Nat → List Nat → List Nat → List Dispatch
  | 0, _, _ => []
  | fuel + 1, stream, msgBytes =>
    if stream.isEmpty then []
    else
      let received := stream.take pipeMsgSize
      let msgBytes := received ++ msgBytes.drop received.length
      let stream := stream.drop pipeMsgSize
      let msg := PipeMsg.decode msgBytes
      if msg.msgType = condType then .cond msg :: readLoop t gepMsgSize fuel stream msgBytes
      else if msg.msgType = gepType then readLoop t gepMsgSize fuel (stream.drop gepMsgSize) msgBytes
      else if msg.msgType = memcmpType then
        let info := t msg.label
        if info.l1 ≠ constLabel ∧ info.l2 ≠ constLabel then readLoop t gepMsgSize fuel stream msgBytes
        else
          let size := memcmpMsgSize + msg.result
          if 1 < (stream.take size).length then [.overflow]
          else readLoop t gepMsgSize fuel (stream.drop size) msgBytes
      else readLoop t gepMsgSize fuel stream msgBytes

/-- The read loop from the uninitialised buffer `garbage`; every iteration
consumes at least one byte, so `stream.length + 1` iterations reach its end. -/
def pipeLoop (t : LabelTable) (gepMsgSize : Nat) (stream garbage : List Nat) : List Dispatch :=
  readLoop t gepMsgSize (stream.length + 1) stream garbage

/-- Modelled from the spec: `BranchContext`. -/
structure BranchContext where
  address : Nat
  id : Nat
  direction : Bool
  context : Nat
  isLoop : Bool
  isCounted : Bool

/-- Modelled from the spec: the coverage manager of cov.h (not part of the
source) by its two calls over a state `σ`. -/
structure CovManager (σ : Type) where
  addBranch : σ → BranchContext → σ × BranchContext
  isBranchInteresting : σ → BranchContext → Bool

/-- What `handle_cond` updates during one tracer run. -/
structure TraceState (σ : Type) where
  cov : σ
  exprCache : ExprCache
  tasks : List (BranchContext × SearchTask)

section Handle

variable (xxhash : Nat → Nat → Nat → Nat) (t : LabelTable) (buf : List Nat) {σ : Type}
  (cov : CovManager σ)

/-- `handle_cond`: record the branch, and if its negation is interesting,
enqueue one task per clause of the negated condition. -/
def handleCond (msg : PipeMsg) (s : TraceState σ) : Except Fault (TraceState σ) :=
  if msg.label = 0 then pure s
  else
    let (covState, ctx) :=
      cov.addBranch s.cov ⟨msg.addr, msg.id, msg.result ≠ 0, msg.context, false, false⟩
    let negCtx := { ctx with direction := !ctx.direction }
    if cov.isBranchInteresting covState negCtx then do
      let (_, tasks, exprCache) ← constructTasks xxhash t buf negCtx.direction msg.label s.exprCache
      pure ⟨covState, exprCache, s.tasks ++ tasks.map (negCtx, ·)⟩
    else pure { s with cov := covState }

/-- One record the read loop dispatches: `handle_cond` for a cond record, and
the write past the memcmp buffer. -/
def handleDispatch (s : TraceState σ) : Dispatch → Except Fault (TraceState σ)
  | .cond msg => handleCond xxhash t buf cov msg s
  | .overflow => throw .heapOverflow

/-- The tasks one tracer run enqueues: each record the read loop dispatches, in
order, from empty caches. -/
def tracerRun (gepMsgSize : Nat) (covState : σ) (stream garbage : List Nat) :
    Except Fault (TraceState σ) :=
  (pipeLoop t gepMsgSize stream garbage).foldlM (handleDispatch xxhash t buf cov) ⟨covState, [], []⟩

end Handle

end Symsan
