import Symsan.Lift
import Symsan.Simplify
import Symsan.Normal

/-!
# Search tasks

`SearchTask::finalize`, `construct_task` and `construct_tasks`: from a branch
label to one finalized task per DNF clause, through the per-run cache of
lifted constraints. The C++ runtime errors these functions can
reach are outcomes of the model (`Fault`); integer fields declared `uint32_t`
are reduced modulo `2 ^ 32` where the source stores into them.
-/

set_option autoImplicit false

namespace Symsan

/-- A fault of the C++ runtime, where the program has no defined result. -/
inductive Fault
  /-- `std::vector::operator[]` past the end -/
  | outOfRange
  /-- `std::unordered_map::at` on an absent key, which throws -/
  | missingKey
  /-- dereferencing a null `shared_ptr` -/
  | nullDeref
  /-- writing past the end of a heap object -/
  | heapOverflow
  deriving Repr, DecidableEq

/-- Per-constraint metadata of a task (`rgd::ConsMeta`). -/
structure ConsMeta where
  inputArgs : List (Bool × Nat)
  comparison : Kind
  i2sCandidates : List (Nat × Nat)

/-- The fields of `rgd::SearchTask` that `finalize` and `construct_task` use. -/
structure SearchTask where
  constraints : List Constraint
  comparisons : List Kind
  consmeta : List ConsMeta
  inputs : List (Nat × Nat)
  shapes : List (Nat × Nat)
  atoiInfo : List (Nat × (Nat × Nat × Nat))
  maxConstNum : Nat
  cmap : List (Nat × List Nat)
  /-- number of 8-byte words allocated for `scratch_args`, 0 while it is null -/
  scratchArgs : Nat
  minDistances : List Nat
  distances : List Nat
  plusDistances : List Nat
  minusDistances : List Nat

/-- A task as `make_shared<rgd::SearchTask>()` creates it. -/
def SearchTask.empty : SearchTask := ⟨[], [], [], [], [], [], 0, [], 0, [], [], [], []⟩

/-- `cmap[key].push_back(value)`, creating the list on first use. -/
def pushAt (map : List (Nat × List Nat)) (key value : Nat) : List (Nat × List Nat) :=
  match map.lookup key with
  | some values => assign map key (values ++ [value])
  | none => map ++ [(key, [value])]

/-- What the offset loop of `finalize` carries: the task's aggregates and the
metadata of the constraint under construction. -/
structure OffsetLoop where
  symMap : List (Nat × Nat)
  inputs : List (Nat × Nat)
  shapes : List (Nat × Nat)
  cmap : List (Nat × List Nat)
  inputArgs : List (Bool × Nat)
  i2sCandidates : List (Nat × Nat)
  lastOffset : Nat
  size : Nat

/-- One iteration of the offset loop of `finalize` for constraint `i`. -/
def finalizeOffset (c : Constraint) (i : Nat) (comparison : Kind) (s : OffsetLoop)
    (entry : Nat × Nat) : Except Fault OffsetLoop := do
  let (offset, lidx) := entry
  let (gidx, s) ← match s.symMap.lookup (u32 offset) with
    | some gidx => pure (gidx, s)
    | none =>
      let gidx := u32 s.inputs.length
      let some byte := c.inputs.lookup (u32 offset) | throw .missingKey
      let some shape := c.shapes.lookup (u32 offset) | throw .missingKey
      pure (gidx, { s with
        symMap := assign s.symMap (u32 offset) gidx
        inputs := s.inputs ++ [(u32 offset, byte)]
        shapes := assign s.shapes (u32 offset) shape })
  let cmap := if comparison ≠ .memcmp ∧ comparison ≠ .memcmpN then pushAt s.cmap gidx i else s.cmap
  let some (symbolic, _) := s.inputArgs.get? lidx | throw .outOfRange
  let (i2sCandidates, size) :=
    if s.lastOffset ≠ 2 ^ 32 - 1 ∧ u32 (s.lastOffset + 1) ≠ offset then
      (s.i2sCandidates ++ [(u32Sub (s.lastOffset + 1) s.size, s.size)], 0)
    else (s.i2sCandidates, s.size)
  pure { s with
    cmap := cmap
    inputArgs := s.inputArgs.set lidx (symbolic, gidx)
    i2sCandidates := i2sCandidates
    lastOffset := u32 offset
    size := u32 (size + 1) }

/-- The entries of a `std::map` in iteration order, by ascending key. -/
def byOffset (localMap : List (Nat × Nat)) : List (Nat × Nat) :=
  localMap.mergeSort fun a b => decide (a.1 ≤ b.1)

/-- The body of `finalize`'s loop for constraint `i`. -/
def finalizeConstraint (task : SearchTask) (symMap : List (Nat × Nat)) (i : Nat)
    (c : Constraint) : Except Fault (SearchTask × List (Nat × Nat)) := do
  let some comparison := task.comparisons.get? i | throw .outOfRange
  let start : OffsetLoop := ⟨symMap, task.inputs, task.shapes, task.cmap, c.inputArgs, [],
    2 ^ 32 - 1, 0⟩
  let s ← (byOffset c.localMap).foldlM (finalizeOffset c i comparison) start
  let i2sCandidates := s.i2sCandidates ++ [(u32Sub (s.lastOffset + 1) s.size, s.size)]
  let atoiInfo := c.atoiInfo.foldl (fun map entry => assign map entry.1 entry.2) task.atoiInfo
  let maxConstNum := if task.maxConstNum < c.constNum then c.constNum else task.maxConstNum
  pure ({ task with
    inputs := s.inputs
    shapes := s.shapes
    cmap := s.cmap
    atoiInfo := atoiInfo
    maxConstNum := maxConstNum
    consmeta := task.consmeta ++ [⟨s.inputArgs, comparison, i2sCandidates⟩] }, s.symMap)

/-- `finalize`'s loop over the constraints from index `i`. -/
def finalizeFrom (symMap : List (Nat × Nat)) : Nat → List Constraint → SearchTask →
    Except Fault SearchTask
  | _, [], task => pure task
  | i, c :: rest, task => do
    let (task, symMap) ← finalizeConstraint task symMap i c
    finalizeFrom symMap (i + 1) rest task

/-- `SearchTask::finalize`. -/
def SearchTask.finalize (task : SearchTask) : Except Fault SearchTask := do
  let task ← finalizeFrom [] 0 task.constraints task
  let n := task.constraints.length
  pure { task with
    scratchArgs := 2 + task.inputs.length + task.maxConstNum + 1
    minDistances := List.replicate n 0
    distances := List.replicate n 0
    plusDistances := List.replicate n 0
    minusDistances := List.replicate n 0 }

/-- The per-run cache `expr_cache`: label ↦ lifted constraint. -/
abbrev ExprCache := List (Nat × Constraint)

section Construct

variable (xxhash : Nat → Nat → Nat → Nat) (t : LabelTable) (buf : List Nat)

/-- The loop of `construct_task`: reuse the cached constraint of each leaf's
label, or lift it, tag it with the leaf's comparison and cache it. -/
def collectConstraints : List AstNode → List Constraint → ExprCache →
    Except Fault (List Constraint × ExprCache)
  | [], constraints, cache => pure (constraints, cache)
  | node :: rest, constraints, cache =>
    match cache.lookup node.label with
    | some c => collectConstraints rest (constraints ++ [c]) cache
    | none =>
      let comparison := node.kind
      match parseConstraint xxhash t buf node.label with
      | none => throw .nullDeref
      | some c =>
        let c := { c with comparison, ast := { c.ast with kind := comparison } }
        collectConstraints rest (constraints ++ [c]) (insertNew cache node.label c)

/-- `construct_task`: the finalized task of one DNF clause. -/
def constructTask (clause : List AstNode) (cache : ExprCache) :
    Except Fault (SearchTask × ExprCache) := do
  let (constraints, cache) ← collectConstraints xxhash t buf clause [] cache
  let task ← { SearchTask.empty with constraints }.finalize
  pure (task, cache)

/-- The loop of `construct_tasks` over the clauses. -/
def constructEach : Formula → ExprCache → Except Fault (List SearchTask × ExprCache)
  | [], cache => pure ([], cache)
  | clause :: rest, cache => do
    let (task, cache) ← constructTask xxhash t buf clause cache
    let (tasks, cache) ← constructEach rest cache
    pure (task :: tasks, cache)

/-- The boolean skeleton `construct_tasks` starts from: `find_roots` from a
fresh root. Every nested call visits a new 32-bit label, so
`kInitializingLabel` calls never run out. -/
def rootOf (label : Nat) : AstNode := (findRoots t kInitializingLabel label AstNode.fresh []).2.1

/-- The clauses `construct_tasks` hands to `construct_task`, or `none` when the
skeleton is a constant and it returns false. -/
def clausesOf (targetDirection : Bool) (label : Nat) : Option Formula :=
  let root := rootOf t label
  if root.kind = .bool then none else some (toDnf (toNnf targetDirection root) [])

/-- `construct_tasks`: whether a formula was found, and one task per clause. -/
def constructTasks (targetDirection : Bool) (label : Nat) (cache : ExprCache) :
    Except Fault (Bool × List SearchTask × ExprCache) :=
  match clausesOf t targetDirection label with
  | none => pure (false, [], cache)
  | some dnf => do
    let (tasks, cache) ← constructEach xxhash t buf dnf cache
    pure (true, tasks, cache)

end Construct

end Symsan
