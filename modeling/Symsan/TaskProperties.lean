import Symsan.Task
import Symsan.LiftProperties

/-!
# Properties of task construction

`construct_task` collects one constraint per leaf but never fills the task's
`comparisons`, so `finalize` reads `comparisons[0]` of an empty vector on every
non-empty clause: no task is ever built. A leaf that is neither cached nor
liftable stops it earlier, with a write through the null constraint
(`constructTask_nullDeref`). Before that, the clauses
`construct_tasks` hands over are already not equivalent to the branch
condition when a sub-formula label is shared, because `find_roots` treats a
visited label as the constant false.
-/

set_option autoImplicit false

namespace Symsan

section Collect

variable (xxhash : Nat → Nat → Nat → Nat) (t : LabelTable) (buf : List Nat)

theorem collectConstraints_length {clause : List AstNode} :
    ∀ {constraints cache result}, collectConstraints xxhash t buf clause constraints cache = .ok result →
      result.1.length = constraints.length + clause.length := by
  induction clause with
  | nil =>
    intro constraints cache result collected
    cases collected
    rfl
  | cons node rest ih =>
    intro constraints cache result collected
    simp only [collectConstraints] at collected
    split at collected
    · simp only [ih collected, List.length_append, List.length_singleton, List.length_cons, List.length_nil]; omega
    · split at collected
      · cases collected
      · simp only [ih collected, List.length_append, List.length_singleton, List.length_cons, List.length_nil]
        omega

theorem collectConstraints_error {clause : List AstNode} :
    ∀ {constraints cache fault}, collectConstraints xxhash t buf clause constraints cache = .error fault →
      fault = .nullDeref := by
  induction clause with
  | nil => intro constraints cache fault failed; cases failed
  | cons node rest ih =>
    intro constraints cache fault failed
    simp only [collectConstraints] at failed
    split at failed
    · exact ih failed
    · split at failed
      · cases failed; rfl
      · exact ih failed

/-- A task whose `comparisons` is empty cannot be finalized once it holds a
constraint: the first iteration reads `comparisons[0]`. -/
theorem finalize_without_comparisons (task : SearchTask) (c : Constraint)
    (rest : List Constraint) (noComparisons : task.comparisons = [])
    (holds : task.constraints = c :: rest) :
    task.finalize = .error .outOfRange := by
  simp [SearchTask.finalize, holds, finalizeFrom, finalizeConstraint, noComparisons, bind,
    Except.bind]

theorem collectConstraints_nullDeref {node : AstNode} (unliftable : parseConstraint xxhash t buf node.label = none) :
    ∀ {clause constraints cache}, node ∈ clause → cache.lookup node.label = none →
      collectConstraints xxhash t buf clause constraints cache = .error .nullDeref := by
  intro clause
  induction clause with
  | nil => intro _ _ member; cases member
  | cons leaf rest ih =>
    intro constraints cache member uncached
    simp only [collectConstraints]
    split
    · rename_i cached found
      have other : node ≠ leaf := fun same => by simp [same, found] at uncached
      exact ih ((List.mem_cons.mp member).resolve_left other) uncached
    · split
      · rfl
      · rename_i absent _ c parsed
        have otherLabel : node.label ≠ leaf.label := fun same => by
          rw [same, parsed] at unliftable; cases unliftable
        have other : node ≠ leaf := fun same => otherLabel (same ▸ rfl)
        refine ih ((List.mem_cons.mp member).resolve_left other) ?_
        simpa only [insertNew, absent, lookup_append_of_ne _ _ otherLabel] using uncached

/-- `construct_task` on a clause with a leaf that is not cached and cannot be
lifted dereferences the null constraint: it builds no task and does not
return normally. -/
theorem constructTask_nullDeref {clause : List AstNode} {cache : ExprCache} {node : AstNode}
    (member : node ∈ clause) (uncached : cache.lookup node.label = none)
    (unliftable : parseConstraint xxhash t buf node.label = none) :
    constructTask xxhash t buf clause cache = .error .nullDeref := by
  simp only [constructTask, collectConstraints_nullDeref xxhash t buf unliftable member uncached]
  rfl

/-- `construct_task` never returns a task for a non-empty clause: lifting a
leaf dereferences a null constraint, or `finalize` indexes the empty
`comparisons` vector. -/
theorem constructTask_faults (node : AstNode) (rest : List AstNode) (cache : ExprCache) :
    constructTask xxhash t buf (node :: rest) cache = .error .nullDeref ∨
      constructTask xxhash t buf (node :: rest) cache = .error .outOfRange := by
  unfold constructTask
  cases collected : collectConstraints xxhash t buf (node :: rest) [] cache with
  | error fault =>
    left
    rw [collectConstraints_error xxhash t buf collected]; rfl
  | ok result =>
    right
    obtain ⟨constraints, cache'⟩ := result
    have length := collectConstraints_length xxhash t buf collected
    obtain ⟨c, others, rfl⟩ : ∃ c others, constraints = c :: others := by
      cases constraints with
      | nil => simp at length
      | cons c others => exact ⟨c, others, rfl⟩
    have faults := finalize_without_comparisons { SearchTask.empty with constraints := c :: others }
      c others rfl rfl
    simp only [bind, Except.bind, faults]

end Collect

/-! ## Reading the clauses

A clause leaf carries an ICmp label and a comparison kind, possibly the
negation of the label's own. It holds when that kind holds of the label's two
operands.
-/

namespace LabelTable

variable (t : LabelTable) (input : InputBytes)

/-- Whether a clause leaf holds: its kind applied to the operands of its label. -/
def leafHolds (node : AstNode) : Bool :=
  let info := t node.label
  node.kind.apply info.size 0 (t.operandOf (t.value input) info info.l1 info.op1 info.l2)
    (t.operandOf (t.value input) info info.l2 info.op2 info.l1) = 1

/-- Whether some clause has all its leaves holding. -/
def someClauseHolds (clauses : Formula) : Bool :=
  clauses.any fun clause => clause.all (t.leafHolds input)

end LabelTable

/-! ## A shared sub-formula

`x || (x && y)` with `x` and `y` byte comparisons against 0: the second visit of
`x` inside the disjunction finds it visited and reads it as the constant false,
so the skeleton is `y && x` and the assignment `x`, `!y` is lost.
-/

/-- Labels 1 and 2 read input bytes 0 and 1; 3 is `0 == in[0]`, 4 is
`0 == in[1]`, 5 is `3 && 4` and 6 is `3 || 5`, constants in `l1` as the tracer
places them. -/
def sharedOrTable : LabelTable := fun label =>
  match label with
  | 1 => ⟨0, 0, 0, 0, .input, 8⟩
  | 2 => ⟨0, 0, 1, 0, .input, 8⟩
  | 3 => ⟨0, 1, 0, 0, .icmp .bveq, 8⟩
  | 4 => ⟨0, 2, 0, 0, .icmp .bveq, 8⟩
  | 5 => ⟨3, 4, 0, 0, .and, 1⟩
  | 6 => ⟨3, 5, 0, 0, .or, 1⟩
  | _ => default

theorem sharedOrTable_dag : sharedOrTable.Dag := by
  intro label notInput
  match label with
  | 0 | 1 | 2 => exact absurd rfl notInput
  | 3 | 4 | 5 | 6 => decide
  | _ + 7 => exact absurd rfl notInput

/-- Input byte 0 is 0 and byte 1 is 1: `x` holds and `y` does not. -/
def xOnly : InputBytes := fun offset => if offset = 1 then 1 else 0

/-- On `x || (x && y)` looking for a true formula, the one clause is `y && x`,
which `x`, `!y` does not satisfy although the condition is true there; and
`construct_tasks` then faults in `finalize` instead of returning. -/
theorem sharedOr_clause_misses_assignment (xxhash : Nat → Nat → Nat → Nat) (buf : List Nat) :
    sharedOrTable.Dag ∧
      (clausesOf sharedOrTable true 6).map (·.map (·.map (·.label))) = some [[4, 3]] ∧
      sharedOrTable.value xOnly 6 = 1 ∧
      sharedOrTable.someClauseHolds xOnly ((clausesOf sharedOrTable true 6).getD []) = false ∧
      constructTasks xxhash sharedOrTable buf true 6 [] = .error .outOfRange :=
  ⟨sharedOrTable_dag, by decide, by decide, by decide, rfl⟩

/-! ## A sub-formula met twice by one connective

`x ^ x` is the constant false, but `simplify_xor` walks `x` as its right
operand, then finds it visited as its left operand and reads it as false:
the skeleton becomes the leaf `x`.
-/

/-- Label 1 reads input byte 0, 2 is `0 == in[0]` and 3 is `2 ^ 2`. -/
def xorSelfTable : LabelTable := fun label =>
  match label with
  | 1 => ⟨0, 0, 0, 0, .input, 8⟩
  | 2 => ⟨0, 1, 0, 0, .icmp .bveq, 8⟩
  | 3 => ⟨2, 2, 0, 0, .xor, 1⟩
  | _ => default

theorem xorSelfTable_dag : xorSelfTable.Dag := by
  intro label notInput
  match label with
  | 0 | 1 => exact absurd rfl notInput
  | 2 | 3 => decide
  | _ + 4 => exact absurd rfl notInput

/-- `find_roots` reports a relational formula for `x ^ x` and leaves the leaf
`x`, true on the all-zero input where `x ^ x` is false. -/
theorem findRoots_xor_self :
    xorSelfTable.Dag ∧ (findRoots xorSelfTable kInitializingLabel 3 AstNode.fresh []).1 = true ∧
      (rootOf xorSelfTable 3).kind = .equal ∧ (rootOf xorSelfTable 3).label = 2 ∧
      (rootOf xorSelfTable 3).children.isEmpty ∧
      (rootOf xorSelfTable 3).truth (xorSelfTable.leafHolds fun _ => 0) = true ∧
      xorSelfTable.value (fun _ => 0) 3 = 0 :=
  ⟨xorSelfTable_dag, by decide, by decide, by decide, by decide, by decide, by decide⟩

/-! ## An operation outside `OP_MAP`

`in[0] * 3 == 12`: `Mul` has no AST kind, `parse_constraint` returns the null
constraint and `construct_task` writes through it.
-/

/-- Label 1 reads input byte 0, 2 is `in[0] * 3` and 3 is `12 == 2`. -/
def mulTable : LabelTable := fun label =>
  match label with
  | 1 => ⟨0, 0, 0, 0, .input, 8⟩
  | 2 => ⟨1, 0, 0, 3, .mul, 8⟩
  | 3 => ⟨0, 2, 12, 0, .icmp .bveq, 8⟩
  | _ => default

theorem mulTable_clause_nullDeref :
    clausesOf mulTable true 3 = some [[rootOf mulTable 3]] ∧
      constructTask (fun _ _ _ => 0) mulTable [] [rootOf mulTable 3] [] = .error .nullDeref ∧
      constructTasks (fun _ _ _ => 0) mulTable [] true 3 [] = .error .nullDeref :=
  ⟨rfl, constructTask_nullDeref _ _ _ (List.mem_singleton_self _) rfl rfl, rfl⟩

end Symsan
