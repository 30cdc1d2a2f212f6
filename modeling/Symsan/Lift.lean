import Symsan.Ast

/-!
# Lifting a label into a constraint

`map_arg`, `do_uta_rel` and `parse_constraint`: the depth-first walk that turns
the slice of the label graph under an ICmp label into an AST, mapping every
input byte it reads to a local argument slot and every constant operand to a
slot of its own. Within one walk a label is expanded once; a later occurrence
becomes a leaf that carries only the label and its width.

The hash function `rgd::xxhash` is a parameter. The C++ recursion has no bound;
the model counts unfoldings, and on a DAG `label + 1` of them never run out.
-/

set_option autoImplicit false

namespace Symsan

/-- `map[key] = value` on a map kept as an association list with unique keys. -/
def assign {α : Type} (map : List (Nat × α)) (key : Nat) (value : α) : List (Nat × α) :=
  match map.lookup key with
  | some _ => map.map fun entry => if entry.1 = key then (key, value) else entry
  | none => map ++ [(key, value)]

/-- `map.insert({key, value})`: no effect when the key is present. -/
def insertNew {α : Type} (map : List (Nat × α)) (key : Nat) (value : α) : List (Nat × α) :=
  match map.lookup key with
  | some _ => map
  | none => map ++ [(key, value)]

/-- A lifted relational constraint (`rgd::Constraint`), its maps kept as
association lists. `comparison` is the field `construct_task` writes; task.h's
declaration no longer has it. -/
structure Constraint where
  ast : AstNode
  comparison : Kind
  /-- input offset ↦ local argument slot (`std::map`, iterated by offset) -/
  localMap : List (Nat × Nat)
  /-- per slot: `(true, _)` for an input byte, `(false, v)` for the constant `v` -/
  inputArgs : List (Bool × Nat)
  /-- input offset, as a `uint32_t` key, ↦ initial byte -/
  inputs : List (Nat × Nat)
  /-- input offset, as a `uint32_t` key, ↦ byte count of the group it starts, 0 inside a group -/
  shapes : List (Nat × Nat)
  atoiInfo : List (Nat × (Nat × Nat × Nat))
  constNum : Nat

/-- A constraint as `make_shared<rgd::Constraint>()` creates it. -/
def Constraint.empty : Constraint := ⟨AstNode.fresh, .bool, [], [], [], [], [], 0⟩

section Lifting

variable (xxhash : Nat → Nat → Nat → Nat)

/-- One byte of `map_arg`'s loop: the slot of `offset`, a fresh one on first
sight. `local_map` is keyed by the `size_t` offset, `inputs` by its `uint32_t`
conversion. -/
def mapByte (buf : List Nat) (offset : Nat) (c : Constraint) : Nat × Constraint :=
  match c.localMap.lookup offset with
  | some argIndex => (argIndex, c)
  | none =>
    let argIndex := c.inputArgs.length
    (argIndex, { c with
      inputs := insertNew c.inputs (u32 offset) (buf.getD offset 0)
      localMap := assign c.localMap offset argIndex
      inputArgs := c.inputArgs ++ [(true, 0)] })

/-- One iteration of `map_arg`'s loop, for byte `i` of the group: the first
byte records the group's length and seeds the Read hash with its slot, the
others record 0. -/
def mapArgStep (buf : List Nat) (offset length : Nat) (acc : Nat × Constraint) (i : Nat) :
    Nat × Constraint :=
  let mapped := mapByte buf (offset + i) acc.2
  if i = 0 then
    (xxhash (length * 8) Kind.read.code mapped.1,
      { mapped.2 with shapes := assign mapped.2.shapes (u32 (offset + i)) length })
  else (acc.1, { mapped.2 with shapes := assign mapped.2.shapes (u32 (offset + i)) 0 })

/-- `map_arg`: map the `length` bytes from `offset`, record the group's shape,
and return the Read hash. -/
def mapArg (buf : List Nat) (offset length : Nat) (c : Constraint) : Nat × Constraint :=
  (List.range length).foldl (mapArgStep xxhash buf offset length) (0, c)

/-- The result of lifting: the node, the visited labels and the constraint. -/
abbrev Lifted := Option (AstNode × List Nat × Constraint)

/-- One operand of a label being lifted (the two child blocks of `do_uta_rel`):
a label is lifted by `lift` and then marked visited; a constant becomes a
`Constant` child of `size` bits in a fresh slot of input_args holding `immediate`. -/
def liftOperand (lift : Nat → List Nat → Constraint → Lifted) (size slot immediate : Nat)
    (visited : List Nat) (c : Constraint) : Lifted :=
  if constOffset ≤ slot then
    match lift slot visited c with
    | none => none
    | some (child, visited, c) => some (child, visited.insert slot, c)
  else
    let argIndex := c.inputArgs.length
    some (⟨.constant, size, 0, argIndex, xxhash size Kind.constant.code argIndex, 0, []⟩, visited,
      { c with inputArgs := c.inputArgs ++ [(false, immediate)], constNum := c.constNum + 1 })

/-- `do_uta_rel`: lift `label` into a node, `none` where the C++ returns false. -/
def doUtaRel (t : LabelTable) (buf : List Nat) :
    Nat → Nat → List Nat → Constraint → Lifted
  | 0, _, _, _ => none
  | fuel + 1, label, visited, c =>
    let info := t label
    if label < constOffset ∨ label = kInitializingLabel then none
    else if label ∈ visited then some ({ AstNode.fresh with label, bits := info.size }, visited, c)
    else if info.op = .input then
      let mapped := mapArg xxhash buf info.op1 1 c
      some (⟨.read, 8, label, info.op1, mapped.1, 0, []⟩, visited, mapped.2)
    else if info.op = .load then
      let offset := (t info.l1).op1
      let mapped := mapArg xxhash buf offset info.l2 c
      some (⟨.read, info.l2 * 8, label, offset, mapped.1, 0, []⟩, visited, mapped.2)
    else match opMap info.op with
      | none => none
      | some kind =>
        match liftOperand xxhash (doUtaRel t buf fuel) (t.constWidth info info.l2) info.l1
            info.op1 visited c with
        | none => none
        | some (left, visited, c) =>
          if info.op.unary then
            some (⟨kind, info.size, label, if info.op = .extract then info.op2 else 0,
              xxhash info.size kind.code left.hash, 0, [left]⟩, visited, c)
          else
            match liftOperand xxhash (doUtaRel t buf fuel) (t.constWidth info info.l1) info.l2
                info.op2 visited c with
            | none => none
            | some (right, visited, c) =>
              let hashKind := if kind.isRelational then Kind.bool else kind
              some (⟨kind, info.size, label, 0,
                xxhash left.hash ((hashKind.code <<< 16) ||| info.size) right.hash, 0,
                [left, right]⟩, visited, c)

/-- `parse_constraint`: lift an ICmp label with empty visited set into a fresh
constraint; `none` is the null constraint. On a DAG, whose operand labels lie
below their users as the tracer allocates them, `label + 1` nested calls are as
many as the C++ recursion can make. -/
def parseConstraint (t : LabelTable) (buf : List Nat) (label : Nat) : Option Constraint :=
  match doUtaRel xxhash t buf (label + 1) label [] Constraint.empty with
  | none => none
  | some (ast, _, c) => some { c with ast }

end Lifting

end Symsan
