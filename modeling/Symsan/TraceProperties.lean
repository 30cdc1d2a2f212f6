import Symsan.Trace

/-!
# Framing of the tracer's message stream

A stream the tracer writes is a sequence of records: a `pipe_msg`, followed by
a `gep_msg` for a gep message and by a `memcmp_msg` for a memcmp message with a
constant operand. On such a stream the read loop dispatches each record in turn
up to the first memcmp record with content, which `read` writes past the one
byte `make_shared<u8>(msg_size)` allocates (`pipeLoop_records`). The loop stops on a read of zero bytes only, so a record
cut off inside its header is still decoded, over the bytes the previous header
left in `msg` (`pipeLoop_redispatches_cut_cond`).
-/

set_option autoImplicit false

namespace Symsan

/-! ## Headers -/

/-- Every field of a message fits the width the layout gives it. -/
structure PipeMsg.Fits (msg : PipeMsg) : Prop where
  msgType : msg.msgType < 2 ^ 16
  flags : msg.flags < 2 ^ 16
  instanceId : msg.instanceId < 2 ^ 32
  addr : msg.addr < 2 ^ 32
  context : msg.context < 2 ^ 32
  id : msg.id < 2 ^ 32
  label : msg.label < 2 ^ 32
  result : msg.result < 2 ^ 64

@[simp] theorem leBytes_length (n width : Nat) : (leBytes n width).length = width := by
  induction width generalizing n <;> simp [leBytes, *]

@[simp] theorem PipeMsg.encode_length (msg : PipeMsg) : msg.encode.length = pipeMsgSize := by
  simp [PipeMsg.encode, pipeMsgSize]

theorem leValue_cons (byte : Nat) (bytes : List Nat) (offset width : Nat) :
    leValue (byte :: bytes) (offset + 1) width = leValue bytes offset width := by
  induction width generalizing offset with
  | zero => rfl
  | succ width ih => simp only [leValue, List.getD_cons_succ, ih]

theorem leValue_append (pre bytes : List Nat) (offset width : Nat) :
    leValue (pre ++ bytes) (pre.length + offset) width = leValue bytes offset width := by
  induction pre with
  | nil => rw [List.nil_append, List.length_nil, Nat.zero_add]
  | cons byte pre ih => rw [List.cons_append, List.length_cons, Nat.add_right_comm, leValue_cons, ih]

theorem leValue_append_right {pre : List Nat} (bytes : List Nat) {offset : Nat} (width : Nat)
    (past : pre.length ≤ offset) :
    leValue (pre ++ bytes) offset width = leValue bytes (offset - pre.length) width := by
  obtain ⟨k, rfl⟩ := Nat.exists_eq_add_of_le past
  rw [leValue_append, Nat.add_sub_cancel_left]

theorem leValue_leBytes (n width : Nat) (rest : List Nat) :
    leValue (leBytes n width ++ rest) 0 width = n % 256 ^ width := by
  induction width generalizing n with
  | zero => rw [Nat.pow_zero, Nat.mod_one]; rfl
  | succ width ih =>
    rw [leValue, leBytes, List.cons_append, List.getD_cons_zero, leValue_cons, ih, Nat.mod_mod,
      Nat.pow_succ', Nat.mod_mul]

/-- A header reads back as the message written, whatever follows it. -/
theorem PipeMsg.decode_encode {msg : PipeMsg} (fits : msg.Fits) (rest : List Nat) :
    PipeMsg.decode (msg.encode ++ rest) = msg := by
  obtain ⟨msgType, flags, instanceId, addr, context, id, label, result⟩ := msg
  simp (disch := simp) only [PipeMsg.decode, PipeMsg.encode, List.append_assoc, leValue_append_right,
    leBytes_length, Nat.reduceSub, leValue_leBytes, PipeMsg.mk.injEq]
  exact ⟨Nat.mod_eq_of_lt fits.msgType, Nat.mod_eq_of_lt fits.flags, Nat.mod_eq_of_lt fits.instanceId,
    Nat.mod_eq_of_lt fits.addr, Nat.mod_eq_of_lt fits.context, Nat.mod_eq_of_lt fits.id,
    Nat.mod_eq_of_lt fits.label, Nat.mod_eq_of_lt fits.result⟩

/-! ## Records -/

/-- Modelled from the spec: the bytes that follow a header, by its type. -/
def payloadSize (t : LabelTable) (gepMsgSize : Nat) (msg : PipeMsg) : Nat :=
  if msg.msgType = gepType then gepMsgSize
  else if msg.msgType = memcmpType ∧ ((t msg.label).l1 = constLabel ∨ (t msg.label).l2 = constLabel)
  then memcmpMsgSize + msg.result
  else 0

/-- Modelled from the spec: a record of the stream, a header and its payload. -/
structure Record (t : LabelTable) (gepMsgSize : Nat) where
  msg : PipeMsg
  payload : List Nat
  fits : msg.Fits
  framed : payload.length = payloadSize t gepMsgSize msg

variable {t : LabelTable} {gepMsgSize : Nat}

/-- The bytes of a record. -/
def Record.bytes (r : Record t gepMsgSize) : List Nat := r.msg.encode ++ r.payload

/-- A memcmp record with content: its header's label has a constant operand. -/
def Record.overflows (r : Record t gepMsgSize) : Bool :=
  r.msg.msgType == memcmpType && payloadSize t gepMsgSize r.msg != 0

/-- What the read loop does with a record: a cond record goes to `handle_cond`,
and the content of a memcmp record overflows the buffer it is read into. -/
def Record.dispatches (r : Record t gepMsgSize) : List Dispatch :=
  if r.msg.msgType = condType then [.cond r.msg]
  else if r.overflows then [.overflow]
  else []

/-- What the read loop does with whole records, in order, up to the first memcmp
record with content. -/
def Record.dispatchAll : List (Record t gepMsgSize) → List Dispatch
  | [] => []
  | r :: rest => r.dispatches ++ if r.overflows then [] else Record.dispatchAll rest

theorem readLoop_record (r : Record t gepMsgSize) (fuel : Nat) (stream msgBytes : List Nat) :
    readLoop t gepMsgSize (fuel + 1) (r.bytes ++ stream) msgBytes =
      r.dispatches ++ if r.overflows then []
        else readLoop t gepMsgSize fuel stream (r.msg.encode ++ msgBytes.drop pipeMsgSize) := by
  obtain ⟨msg, payload, fits, framed⟩ := r
  have header : (msg.encode ++ (payload ++ stream)).take pipeMsgSize = msg.encode :=
    List.take_left' (PipeMsg.encode_length msg)
  have body : (msg.encode ++ (payload ++ stream)).drop pipeMsgSize = payload ++ stream :=
    List.drop_left' (PipeMsg.encode_length msg)
  have notEmpty : (msg.encode ++ (payload ++ stream)).isEmpty = false := by
    cases encoded : msg.encode with
    | nil => simpa [encoded, pipeMsgSize] using PipeMsg.encode_length msg
    | cons _ _ => rfl
  simp only [Record.bytes, Record.dispatches, Record.overflows, List.append_assoc, readLoop, notEmpty,
    header, body, PipeMsg.encode_length, PipeMsg.decode_encode fits]
  by_cases cond : msg.msgType = condType
  · have empty : payload = [] := List.eq_nil_of_length_eq_zero (by
      simpa [payloadSize, cond, condType, gepType, memcmpType] using framed)
    simp [cond, empty, condType, memcmpType]
  by_cases gep : msg.msgType = gepType
  · have sized : payload.length = gepMsgSize := by simpa [payloadSize, gep] using framed
    simp [cond, gep, ← sized, condType, gepType, memcmpType]
  by_cases memcmp : msg.msgType = memcmpType
  · by_cases constant : (t msg.label).l1 = constLabel ∨ (t msg.label).l2 = constLabel
    · have sized : payload.length = memcmpMsgSize + msg.result := by
        simpa [payloadSize, gep, memcmp, constant] using framed
      have read : ¬((t msg.label).l1 ≠ constLabel ∧ (t msg.label).l2 ≠ constLabel) :=
        fun ⟨first, second⟩ => constant.elim first second
      have nonzero : payloadSize t gepMsgSize msg ≠ 0 := by
        rw [← framed, sized]; simp [memcmpMsgSize]
      have long : 1 < payload.length := by rw [sized, memcmpMsgSize]; omega
      simp [cond, gep, memcmp, read, nonzero, ← sized, long, condType, gepType, memcmpType]
    · have empty : payload = [] := List.eq_nil_of_length_eq_zero (by
        simpa [payloadSize, gep, memcmp, constant, gepType, memcmpType] using framed)
      have skipped : (t msg.label).l1 ≠ constLabel ∧ (t msg.label).l2 ≠ constLabel :=
        not_or.mp constant
      have noPayload : payloadSize t gepMsgSize msg = 0 := by rw [← framed, empty]; rfl
      simp [cond, gep, memcmp, skipped, empty, noPayload, condType, gepType, memcmpType]
  · have empty : payload = [] := List.eq_nil_of_length_eq_zero (by
      simpa [payloadSize, gep, memcmp] using framed)
    simp [cond, gep, memcmp, empty, payloadSize]

@[simp] theorem readLoop_nil (fuel : Nat) (msgBytes : List Nat) :
    readLoop t gepMsgSize fuel [] msgBytes = [] := by
  cases fuel <;> rfl

/-- On a stream of whole records the read loop dispatches each record in turn,
up to the first memcmp record with content. -/
theorem readLoop_records (records : List (Record t gepMsgSize)) :
    ∀ {fuel msgBytes}, records.length ≤ fuel →
      readLoop t gepMsgSize fuel (records.flatMap Record.bytes) msgBytes = Record.dispatchAll records := by
  induction records with
  | nil => intro fuel msgBytes _; exact readLoop_nil fuel msgBytes
  | cons r rest ih =>
    intro fuel msgBytes enough
    obtain ⟨fuel, rfl⟩ : ∃ f, fuel = f + 1 := ⟨fuel - 1, by simp at enough; omega⟩
    rw [List.flatMap_cons, readLoop_record, Record.dispatchAll]
    cases r.overflows
    · rw [if_neg Bool.false_ne_true, if_neg Bool.false_ne_true, ih (by simpa using enough)]
    · rfl

/-- The read loop of `afl_custom_fuzz_count` over a stream of whole records:
`handle_cond` for each cond record, in order, until the first memcmp record
with content, whose bytes `read` writes past the one-byte buffer. -/
theorem pipeLoop_records (records : List (Record t gepMsgSize)) (garbage : List Nat) :
    pipeLoop t gepMsgSize (records.flatMap Record.bytes) garbage = Record.dispatchAll records := by
  apply readLoop_records
  calc records.length
      ≤ (records.flatMap Record.bytes).length := by
        induction records with
        | nil => rfl
        | cons r rest ih => simp [Record.bytes, pipeMsgSize] at ih ⊢; omega
    _ ≤ _ := Nat.le_succ _

/-! ## A record cut off in its header -/

/-- A cond header followed by the first byte of another: the one-byte read
returns more than zero bytes, the loop decodes that byte over the 31 the
previous header left in `msg`, and `handle_cond` receives the first message a
second time. -/
theorem pipeLoop_redispatches_cut_cond (t : LabelTable) (gepMsgSize : Nat) (garbage : List Nat)
    {msg : PipeMsg} (fits : msg.Fits) (cond : msg.msgType = condType) :
    pipeLoop t gepMsgSize (msg.encode ++ [condType]) garbage = [.cond msg, .cond msg] := by
  let r : Record t gepMsgSize :=
    ⟨msg, [], fits, by simp [payloadSize, cond, condType, gepType, memcmpType]⟩
  have leading : msg.encode = condType :: msg.encode.tail := by
    simp [PipeMsg.encode, leBytes, cond, condType]
  have restored : ∀ rest, condType :: (msg.encode ++ rest).tail = msg.encode ++ rest := by
    intro rest
    rw [leading]
    rfl
  have length : (msg.encode ++ [condType]).length + 1 = 33 + 1 := by simp [pipeMsgSize]
  have stream : msg.encode ++ [condType] = r.bytes ++ [condType] := by
    rw [Record.bytes, List.append_nil]
  unfold pipeLoop
  rw [length, stream, readLoop_record, readLoop]
  have received : List.take pipeMsgSize [condType] = [condType] := rfl
  have drained : List.drop pipeMsgSize [condType] = [] := rfl
  simp only [List.isEmpty_cons, received, drained, List.length_singleton, List.singleton_append,
    List.drop_one, restored, PipeMsg.decode_encode fits, cond, readLoop_nil]
  simp [Record.dispatches, Record.overflows, r, cond, condType, memcmpType]

/-- A branch at address 4096 with label 5, taken, followed by one byte. -/
theorem cutCondStream_redispatched :
    pipeLoop (fun _ => default) 16 ((⟨condType, 0, 0, 4096, 0, 1, 5, 1⟩ : PipeMsg).encode ++ [condType]) [] =
      [.cond ⟨condType, 0, 0, 4096, 0, 1, 5, 1⟩, .cond ⟨condType, 0, 0, 4096, 0, 1, 5, 1⟩] :=
  pipeLoop_redispatches_cut_cond _ _ _ ⟨by decide, by decide, by decide, by decide, by decide,
    by decide, by decide, by decide⟩ rfl

end Symsan
