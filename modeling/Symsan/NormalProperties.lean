import Symsan.Normal

/-!
# Properties of the normal forms

`to_nnf` against the truth of skeletons. Leaves are relational nodes read
through a valuation of their operands, each with the comparison the node
carries, so negating a leaf is `negate_cmp`. On skeletons without `LNot` it
is correct for both polarities and applying it twice changes nothing more;
an `LNot` under positive polarity survives and breaks both.

`to_dnf` on `LAnd`/`LOr` trees appends the clauses of the tree to the formula
it is handed, and the clauses read as the tree (`toDnf_appends_clauses`). On
any tree, every clause it adds is non-empty (`toDnf_clause_ne_nil`).
-/

set_option autoImplicit false

namespace Symsan

/-- A boolean skeleton: `LAnd`/`LOr` with two children, `LNot` with one, and
relational leaves without children. -/
inductive Skeleton : AstNode → Prop
  | leaf {node : AstNode} : node.kind.isRelational → node.children = [] → Skeleton node
  | lAnd {bits label index hash value : Nat} {left right : AstNode} :
      Skeleton left → Skeleton right →
      Skeleton ⟨.lAnd, bits, label, index, hash, value, [left, right]⟩
  | lOr {bits label index hash value : Nat} {left right : AstNode} :
      Skeleton left → Skeleton right →
      Skeleton ⟨.lOr, bits, label, index, hash, value, [left, right]⟩
  | lNot {bits label index hash value : Nat} {child : AstNode} :
      Skeleton child → Skeleton ⟨.lNot, bits, label, index, hash, value, [child]⟩

/-- A skeleton in negation normal form: no `LNot`, only `LAnd`/`LOr` over
relational leaves. -/
inductive NnfSkeleton : AstNode → Prop
  | leaf {node : AstNode} : node.kind.isRelational → node.children = [] → NnfSkeleton node
  | lAnd {bits label index hash value : Nat} {left right : AstNode} :
      NnfSkeleton left → NnfSkeleton right →
      NnfSkeleton ⟨.lAnd, bits, label, index, hash, value, [left, right]⟩
  | lOr {bits label index hash value : Nat} {left right : AstNode} :
      NnfSkeleton left → NnfSkeleton right →
      NnfSkeleton ⟨.lOr, bits, label, index, hash, value, [left, right]⟩

/-! ## Unfolding on skeleton nodes -/

section Unfolding

variable (leaf : AstNode → Bool) (bits label index hash value : Nat) (left right : AstNode)

@[simp] theorem AstNode.truth_lAnd :
    AstNode.truth leaf ⟨.lAnd, bits, label, index, hash, value, [left, right]⟩ =
      (left.truth leaf && right.truth leaf) := rfl

@[simp] theorem AstNode.truth_lOr :
    AstNode.truth leaf ⟨.lOr, bits, label, index, hash, value, [left, right]⟩ =
      (left.truth leaf || right.truth leaf) := rfl

theorem AstNode.truth_relational {leaf : AstNode → Bool} {node : AstNode}
    (relational : node.kind.isRelational) : node.truth leaf = leaf node := by
  obtain ⟨kind, bits, label, index, hash, value, children⟩ := node
  cases kind <;> first | rfl | cases relational

@[simp] theorem toNnf_false_lAnd :
    toNnf false ⟨.lAnd, bits, label, index, hash, value, [left, right]⟩ =
      ⟨.lOr, bits, label, index, hash, value, [toNnf false left, toNnf false right]⟩ := rfl

@[simp] theorem toNnf_false_lOr :
    toNnf false ⟨.lOr, bits, label, index, hash, value, [left, right]⟩ =
      ⟨.lAnd, bits, label, index, hash, value, [toNnf false left, toNnf false right]⟩ := rfl

@[simp] theorem toNnf_true_lAnd :
    toNnf true ⟨.lAnd, bits, label, index, hash, value, [left, right]⟩ =
      ⟨.lAnd, bits, label, index, hash, value, [toNnf true left, toNnf true right]⟩ := rfl

@[simp] theorem toNnf_true_lOr :
    toNnf true ⟨.lOr, bits, label, index, hash, value, [left, right]⟩ =
      ⟨.lOr, bits, label, index, hash, value, [toNnf true left, toNnf true right]⟩ := rfl

end Unfolding

/-- A leaf read with the comparison it carries, its operands given by `operands`
for its label and compared at the first operand's width. -/
def readLeaf (operands : Nat → (Nat × Nat) × (Nat × Nat)) (node : AstNode) : Bool :=
  node.kind.apply (operands node.label).1.2 0 (operands node.label).1 (operands node.label).2 = 1

/-- `b` when looking for a true formula, its negation otherwise. -/
def polar : Bool → Bool → Bool
  | true, b => b
  | false, b => !b

theorem ite_one_iff_ne_one {holds fails : Prop} [Decidable holds] [Decidable fails]
    (complement : holds ↔ ¬fails) :
    (if holds then 1 else 0 : Nat) = 1 ↔ (if fails then 1 else 0 : Nat) ≠ 1 := by
  by_cases failing : fails <;> simp [failing, complement]

theorem negateCmp_apply {kind : Kind} (relational : kind.isRelational) (bits index : Nat)
    (x y : Nat × Nat) :
    (negateCmp kind).apply bits index x y = 1 ↔ kind.apply bits index x y ≠ 1 := by
  obtain ⟨x, w⟩ := x
  obtain ⟨y, v⟩ := y
  cases kind <;> (try cases relational) <;> refine ite_one_iff_ne_one ?_ <;>
    simp [BitVec.ult, BitVec.ule, BitVec.slt, BitVec.sle, Int.not_lt, Int.not_le]

theorem negateCmp_isRelational {kind : Kind} (relational : kind.isRelational) :
    (negateCmp kind).isRelational := by
  cases kind <;> first | rfl | cases relational

theorem toNnf_leaf (kind : Kind) (expected : Bool) (bits label index hash value : Nat) :
    toNnf expected ⟨kind, bits, label, index, hash, value, []⟩ =
      ⟨if expected then kind else negateCmp kind, bits, label, index, hash, value, []⟩ := by
  cases expected <;> cases kind <;> rfl

/-- On skeletons without `LNot`, `to_nnf` keeps the shape and yields the truth
of the skeleton for a true target and its negation for a false one. -/
theorem NnfSkeleton.toNnf_polar {node : AstNode} (skeleton : NnfSkeleton node) (expected : Bool)
    (operands : Nat → (Nat × Nat) × (Nat × Nat)) :
    NnfSkeleton (toNnf expected node) ∧
      (toNnf expected node).truth (readLeaf operands) =
        polar expected (node.truth (readLeaf operands)) := by
  induction skeleton generalizing expected with
  | @leaf node relational childless =>
    obtain ⟨kind, bits, label, index, hash, value, children⟩ := node
    subst childless
    rw [toNnf_leaf]
    cases expected
    · have negated := negateCmp_isRelational relational
      refine ⟨.leaf negated rfl, ?_⟩
      rw [AstNode.truth_relational negated, AstNode.truth_relational relational]
      simp [readLeaf, polar, negateCmp_apply relational]
    · exact ⟨.leaf relational rfl, rfl⟩
  | lAnd _ _ leftIH rightIH =>
    obtain ⟨leftShape, leftTruth⟩ := leftIH expected
    obtain ⟨rightShape, rightTruth⟩ := rightIH expected
    cases expected
    · refine ⟨.lOr leftShape rightShape, ?_⟩
      simp only [toNnf_false_lAnd, AstNode.truth_lOr, AstNode.truth_lAnd, leftTruth, rightTruth,
        polar, Bool.not_and]
    · exact ⟨.lAnd leftShape rightShape, by simp only [toNnf_true_lAnd, AstNode.truth_lAnd,
        leftTruth, rightTruth, polar]⟩
  | lOr _ _ leftIH rightIH =>
    obtain ⟨leftShape, leftTruth⟩ := leftIH expected
    obtain ⟨rightShape, rightTruth⟩ := rightIH expected
    cases expected
    · refine ⟨.lAnd leftShape rightShape, ?_⟩
      simp only [toNnf_false_lOr, AstNode.truth_lAnd, AstNode.truth_lOr, leftTruth, rightTruth,
        polar, Bool.not_or]
    · exact ⟨.lOr leftShape rightShape, by simp only [toNnf_true_lOr, AstNode.truth_lOr,
        leftTruth, rightTruth, polar]⟩

/-- The leaf `x <u 5` of label 7. -/
def belowFive : AstNode := ⟨.ult, 1, 7, 0, 0, 0, []⟩

/-- `LNot (x <u 5)`, the skeleton of `!(x < 5)`. -/
def notBelowFive : AstNode := ⟨.lNot, 1, 0, 0, 0, 0, [belowFive]⟩

/-- The operands `x = 1` and `5`, both 8 bits wide, for the leaf of label 7. -/
def xIsOne (_ : Nat) : (Nat × Nat) × (Nat × Nat) := ((1, 8), (5, 8))

/-- `x <u 5 ∧ (x ≥u 5 ∨ x <u 5)`, over the leaves of labels 7 and 8. -/
def belowFiveGuard : AstNode :=
  ⟨.lAnd, 1, 0, 0, 0, 0, [belowFive, ⟨.lOr, 1, 0, 0, 0, 0, [⟨.uge, 1, 8, 0, 0, 0, []⟩, belowFive]⟩]⟩

theorem belowFiveGuard_toNnf_false :
    NnfSkeleton (toNnf false belowFiveGuard) ∧
      (toNnf false belowFiveGuard).truth (readLeaf xIsOne) = polar false (belowFiveGuard.truth (readLeaf xIsOne)) :=
  NnfSkeleton.toNnf_polar
    (show NnfSkeleton belowFiveGuard from .lAnd (.leaf rfl rfl) (.lOr (.leaf rfl rfl) (.leaf rfl rfl))) false xIsOne

/-- Under positive polarity `to_nnf` keeps an `LNot` node and negates the leaf
below it: `LNot (x <u 5)` becomes `LNot (x ≥u 5)`, which still holds an `LNot`
and reads as `x < 5` where the skeleton reads `!(x < 5)`. -/
theorem toNnf_keeps_positive_lNot :
    Skeleton notBelowFive ∧ (toNnf true notBelowFive).kind = .lNot ∧
      (toNnf true notBelowFive).children.map (·.kind) = [.uge] ∧
      (toNnf true notBelowFive).truth (readLeaf xIsOne) = true ∧
      polar true (notBelowFive.truth (readLeaf xIsOne)) = false :=
  ⟨.lNot (.leaf rfl rfl), rfl, rfl, by decide, by decide⟩

/-! ## Applying `to_nnf` twice -/

theorem negateCmp_negateCmp (kind : Kind) : negateCmp (negateCmp kind) = kind := by
  cases kind <;> rfl

theorem NnfSkeleton.toNnf_true_self {node : AstNode} (skeleton : NnfSkeleton node) :
    toNnf true node = node := by
  induction skeleton with
  | @leaf node _ childless =>
    obtain ⟨kind, bits, label, index, hash, value, children⟩ := node
    subst childless
    rw [toNnf_leaf]
    rfl
  | lAnd _ _ leftIH rightIH => rw [toNnf_true_lAnd, leftIH, rightIH]
  | lOr _ _ leftIH rightIH => rw [toNnf_true_lOr, leftIH, rightIH]

theorem NnfSkeleton.toNnf_false_false {node : AstNode} (skeleton : NnfSkeleton node) :
    toNnf false (toNnf false node) = node := by
  induction skeleton with
  | @leaf node _ childless =>
    obtain ⟨kind, bits, label, index, hash, value, children⟩ := node
    subst childless
    rw [toNnf_leaf, toNnf_leaf]
    exact congrArg (fun kind => (⟨kind, bits, label, index, hash, value, []⟩ : AstNode))
      (negateCmp_negateCmp kind)
  | lAnd _ _ leftIH rightIH => rw [toNnf_false_lAnd, toNnf_false_lOr, leftIH, rightIH]
  | lOr _ _ leftIH rightIH => rw [toNnf_false_lOr, toNnf_false_lAnd, leftIH, rightIH]

/-- On skeletons without `LNot`, `to_nnf(true, ·)` is idempotent and
`to_nnf(false, ·)` twice is `to_nnf(true, ·)` once. -/
theorem NnfSkeleton.toNnf_twice {node : AstNode} (skeleton : NnfSkeleton node) :
    toNnf true (toNnf true node) = toNnf true node ∧
      toNnf false (toNnf false node) = toNnf true node := by
  rw [skeleton.toNnf_true_self, skeleton.toNnf_true_self, skeleton.toNnf_false_false]
  exact ⟨rfl, rfl⟩

/-- `(x <u 5) && (x <u 5)`, two relational leaves under an `LAnd`. -/
theorem belowFive_and_toNnf_twice :
    toNnf true (toNnf true ⟨.lAnd, 1, 0, 0, 0, 0, [belowFive, belowFive]⟩) =
        toNnf true ⟨.lAnd, 1, 0, 0, 0, 0, [belowFive, belowFive]⟩ ∧
      toNnf false (toNnf false ⟨.lAnd, 1, 0, 0, 0, 0, [belowFive, belowFive]⟩) =
        toNnf true ⟨.lAnd, 1, 0, 0, 0, 0, [belowFive, belowFive]⟩ :=
  NnfSkeleton.toNnf_twice (.lAnd (.leaf rfl rfl) (.leaf rfl rfl))

/-- With an `LNot` in the skeleton neither identity holds: each positive pass
negates the leaf under the kept `LNot` again, and two negative passes drop the
`LNot` that a positive pass keeps. -/
theorem toNnf_twice_lNot :
    Skeleton notBelowFive ∧ toNnf true (toNnf true notBelowFive) ≠ toNnf true notBelowFive ∧
      toNnf false (toNnf false notBelowFive) ≠ toNnf true notBelowFive := by
  refine ⟨.lNot (.leaf rfl rfl), fun same => ?_, fun same => ?_⟩
  · exact absurd (congrArg (fun node => node.children.map (·.kind)) same) (by decide)
  · exact absurd (congrArg AstNode.kind same) (by decide)

/-! ## Disjunctive normal form -/

/-- A tree `to_dnf` reads: `LAnd` and `LOr` nodes with two children; every
other node is a leaf, whatever it holds. -/
inductive AndOrTree : AstNode → Prop
  | leaf {node : AstNode} : node.kind ≠ .lAnd → node.kind ≠ .lOr → AndOrTree node
  | lAnd {bits label index hash value : Nat} {left right : AstNode} :
      AndOrTree left → AndOrTree right →
      AndOrTree ⟨.lAnd, bits, label, index, hash, value, [left, right]⟩
  | lOr {bits label index hash value : Nat} {left right : AstNode} :
      AndOrTree left → AndOrTree right →
      AndOrTree ⟨.lOr, bits, label, index, hash, value, [left, right]⟩

/-- The leaves of a tree, left to right. -/
def AstNode.dnfLeaves : AstNode → List AstNode
  | ⟨.lAnd, _, _, _, _, _, [left, right]⟩ => left.dnfLeaves ++ right.dnfLeaves
  | ⟨.lOr, _, _, _, _, _, [left, right]⟩ => left.dnfLeaves ++ right.dnfLeaves
  | node => [node]

/-- The clauses of a tree: one clause holding a leaf, the concatenations
`c1 ++ c2` over the two children's clauses for `LAnd`, and the children's
clauses one after the other for `LOr`. -/
def AstNode.clauses : AstNode → Formula
  | ⟨.lAnd, _, _, _, _, _, [left, right]⟩ =>
    left.clauses.flatMap fun c1 => right.clauses.map (c1 ++ ·)
  | ⟨.lOr, _, _, _, _, _, [left, right]⟩ => left.clauses ++ right.clauses
  | node => [[node]]

section Unfolding

variable (bits label index hash value : Nat) (left right : AstNode) (formula : Formula)

theorem toDnf_lAnd :
    toDnf ⟨.lAnd, bits, label, index, hash, value, [left, right]⟩ formula =
      if (toDnf left []).isEmpty then toDnf right []
      else formula ++ (toDnf left []).flatMap fun c1 => (toDnf right []).map (c1 ++ ·) := rfl

theorem toDnf_lOr :
    toDnf ⟨.lOr, bits, label, index, hash, value, [left, right]⟩ formula =
      toDnf right (toDnf left formula) := rfl

@[simp] theorem AstNode.clauses_lAnd :
    AstNode.clauses ⟨.lAnd, bits, label, index, hash, value, [left, right]⟩ =
      left.clauses.flatMap fun c1 => right.clauses.map (c1 ++ ·) := rfl

@[simp] theorem AstNode.clauses_lOr :
    AstNode.clauses ⟨.lOr, bits, label, index, hash, value, [left, right]⟩ =
      left.clauses ++ right.clauses := rfl

@[simp] theorem AstNode.dnfLeaves_lAnd :
    AstNode.dnfLeaves ⟨.lAnd, bits, label, index, hash, value, [left, right]⟩ =
      left.dnfLeaves ++ right.dnfLeaves := rfl

@[simp] theorem AstNode.dnfLeaves_lOr :
    AstNode.dnfLeaves ⟨.lOr, bits, label, index, hash, value, [left, right]⟩ =
      left.dnfLeaves ++ right.dnfLeaves := rfl

end Unfolding

theorem dnf_leaf {node : AstNode} (notAnd : node.kind ≠ .lAnd) (notOr : node.kind ≠ .lOr)
    (formula : Formula) :
    toDnf node formula = formula ++ [[node]] ∧ node.clauses = [[node]] ∧
      node.dnfLeaves = [node] := by
  obtain ⟨kind, bits, label, index, hash, value, children⟩ := node
  cases kind <;> first | exact ⟨rfl, rfl, rfl⟩ | exact absurd rfl notAnd | exact absurd rfl notOr

theorem any_all_product (v : AstNode → Bool) (lefts rights : Formula) :
    ((lefts.flatMap fun c1 => rights.map (c1 ++ ·)).any fun clause => clause.all v) =
      ((lefts.any fun clause => clause.all v) && rights.any fun clause => clause.all v) := by
  induction lefts with
  | nil => rfl
  | cons c1 rest ih =>
    simp only [List.flatMap_cons, List.any_append, ih, List.any_map, Function.comp_def,
      List.all_append, List.any_cons]
    cases c1.all v
    · simp only [Bool.false_and, Bool.false_or, Bool.or_iff_right_iff_imp, List.any_eq_true, Bool.false_eq_true,
        and_false, exists_const, Bool.and_eq_true, List.all_eq_true, IsEmpty.forall_iff]
    · simp only [Bool.true_and, Bool.true_or, Bool.or_iff_left_iff_imp, Bool.and_eq_true, List.any_eq_true,
        List.all_eq_true, and_imp, imp_self, implies_true]

theorem AndOrTree.clauses_ne_nil {node : AstNode} (tree : AndOrTree node) : node.clauses ≠ [] := by
  induction tree with
  | leaf notAnd notOr => simp [(dnf_leaf notAnd notOr []).2.1]
  | lAnd _ _ leftIH rightIH =>
    obtain ⟨c1, rest, split⟩ := List.exists_cons_of_ne_nil leftIH
    obtain ⟨c2, rest', split'⟩ := List.exists_cons_of_ne_nil rightIH
    simp [split, split']
  | lOr _ _ leftIH _ => simp [leftIH]

theorem AndOrTree.toDnf_eq {node : AstNode} (tree : AndOrTree node) :
    ∀ formula, toDnf node formula = formula ++ node.clauses := by
  induction tree with
  | leaf notAnd notOr =>
    intro formula
    rw [(dnf_leaf notAnd notOr formula).1, (dnf_leaf notAnd notOr formula).2.1]
  | @lAnd _ _ _ _ _ left right leftTree _ leftIH rightIH =>
    intro formula
    have nonempty : (toDnf left []).isEmpty = false := by
      obtain ⟨c1, rest, split⟩ := List.exists_cons_of_ne_nil leftTree.clauses_ne_nil
      rw [leftIH, List.nil_append, split]
      rfl
    rw [toDnf_lAnd, nonempty, if_neg Bool.false_ne_true, leftIH, rightIH, List.nil_append,
      List.nil_append, AstNode.clauses_lAnd]
  | lOr _ _ leftIH rightIH =>
    intro formula
    rw [toDnf_lOr, leftIH, rightIH, List.append_assoc, AstNode.clauses_lOr]

theorem AndOrTree.clauses_leaves {node : AstNode} (tree : AndOrTree node) :
    ∀ clause ∈ node.clauses, clause ≠ [] ∧ ∀ leaf ∈ clause, leaf ∈ node.dnfLeaves := by
  induction tree with
  | leaf notAnd notOr =>
    obtain ⟨-, clauses, leaves⟩ := dnf_leaf notAnd notOr []
    simp [clauses, leaves]
  | lAnd _ _ leftIH rightIH =>
    simp only [AstNode.clauses_lAnd, List.mem_flatMap, List.mem_map, AstNode.dnfLeaves_lAnd]
    rintro _ ⟨c1, first, c2, second, rfl⟩
    refine ⟨by simp [(leftIH c1 first).1], fun leaf member => ?_⟩
    rcases List.mem_append.mp member with onLeft | onRight
    · exact List.mem_append_left _ ((leftIH c1 first).2 leaf onLeft)
    · exact List.mem_append_right _ ((rightIH c2 second).2 leaf onRight)
  | lOr _ _ leftIH rightIH =>
    simp only [AstNode.clauses_lOr, List.mem_append, AstNode.dnfLeaves_lOr]
    rintro clause (onLeft | onRight)
    · exact ⟨(leftIH clause onLeft).1, fun leaf member =>
        .inl ((leftIH clause onLeft).2 leaf member)⟩
    · exact ⟨(rightIH clause onRight).1, fun leaf member =>
        .inr ((rightIH clause onRight).2 leaf member)⟩

/-- Some clause has all its leaves true exactly when the tree is true. -/
theorem AndOrTree.clauses_truth {node : AstNode} (tree : AndOrTree node) (leaf : AstNode → Bool) :
    (node.clauses.any fun clause => clause.all fun n => n.truth leaf) = node.truth leaf := by
  induction tree with
  | leaf notAnd notOr => simp [(dnf_leaf notAnd notOr []).2.1]
  | lAnd _ _ leftIH rightIH => rw [AstNode.clauses_lAnd, any_all_product, leftIH, rightIH]; rfl
  | lOr _ _ leftIH rightIH => rw [AstNode.clauses_lOr, List.any_append, leftIH, rightIH]; rfl

/-- Whatever the tree, every clause `to_dnf` adds holds at least one node: a
leaf's clause is the leaf, and `LAnd` joins non-empty clauses or keeps the
second side's. -/
theorem toDnf_clause_ne_nil (node : AstNode) (formula : Formula) :
    (∀ clause ∈ formula, clause ≠ []) → ∀ clause ∈ toDnf node formula, clause ≠ [] := by
  induction node, formula using toDnf.induct with
  | case1 _ _ _ _ _ left right _ _ _ leftEmpty _ rightIH =>
    intro _
    rw [toDnf, if_pos leftEmpty]
    exact rightIH fun _ absent => nomatch absent
  | case2 _ _ _ _ _ left right _ formula _ leftNonempty leftIH _ =>
    intro nonempty clause member
    rw [toDnf, if_neg leftNonempty] at member
    rcases List.mem_append.mp member with old | joined
    · exact nonempty clause old
    · obtain ⟨first, inLeft, joined⟩ := List.mem_flatMap.mp joined
      obtain ⟨_, _, rfl⟩ := List.mem_map.mp joined
      exact List.append_ne_nil_of_left_ne_nil (leftIH (fun _ absent => nomatch absent) first inLeft) _
  | case3 _ _ _ _ _ _ _ _ _ leftIH rightIH =>
    intro nonempty
    rw [toDnf]
    exact rightIH (leftIH nonempty)
  | case4 node formula notAnd notOr =>
    intro nonempty clause member
    have leaf : toDnf node formula = formula ++ [[node]] := by
      unfold toDnf
      split
      · exact absurd rfl (notAnd _ _ _ _ _ _ _ _)
      · exact absurd rfl (notOr _ _ _ _ _ _ _ _)
      · rfl
    rw [leaf, List.mem_append, List.mem_singleton] at member
    rcases member with old | rfl
    exacts [nonempty clause old, List.cons_ne_nil node []]

/-- `to_dnf` leaves the formula it is handed followed by the clauses of the
tree: at least one, each a non-empty list of the tree's leaves, products of
the sides' clauses for `LAnd` and both sides' clauses for `LOr`, and together
true exactly when the tree is. The assignment `formula = right` is never
taken, so no clause already in the formula is lost. -/
theorem toDnf_appends_clauses {node : AstNode} (tree : AndOrTree node) (formula : Formula) :
    toDnf node formula = formula ++ node.clauses ∧ node.clauses ≠ [] ∧
      (∀ clause ∈ node.clauses, clause ≠ [] ∧ ∀ leaf ∈ clause, leaf ∈ node.dnfLeaves) ∧
      ∀ leaf : AstNode → Bool,
        (node.clauses.any fun clause => clause.all fun n => n.truth leaf) = node.truth leaf :=
  ⟨tree.toDnf_eq formula, tree.clauses_ne_nil, tree.clauses_leaves, tree.clauses_truth⟩

/-- `x <u 5 && (x <u 5 || LNot (x <u 5))` appended to one clause already there. -/
theorem belowFive_toDnf :
    toDnf ⟨.lAnd, 1, 0, 0, 0, 0, [belowFive, ⟨.lOr, 1, 0, 0, 0, 0, [belowFive, notBelowFive]⟩]⟩
        [[belowFive]] =
      [[belowFive]] ++ AstNode.clauses
        ⟨.lAnd, 1, 0, 0, 0, 0, [belowFive, ⟨.lOr, 1, 0, 0, 0, 0, [belowFive, notBelowFive]⟩]⟩ ∧
      AstNode.clauses
          ⟨.lAnd, 1, 0, 0, 0, 0, [belowFive, ⟨.lOr, 1, 0, 0, 0, 0, [belowFive, notBelowFive]⟩]⟩ ≠ [] ∧
      (∀ clause ∈ AstNode.clauses
          ⟨.lAnd, 1, 0, 0, 0, 0, [belowFive, ⟨.lOr, 1, 0, 0, 0, 0, [belowFive, notBelowFive]⟩]⟩,
        clause ≠ [] ∧ ∀ leaf ∈ clause, leaf ∈ AstNode.dnfLeaves
          ⟨.lAnd, 1, 0, 0, 0, 0, [belowFive, ⟨.lOr, 1, 0, 0, 0, 0, [belowFive, notBelowFive]⟩]⟩) ∧
      ∀ leaf : AstNode → Bool,
        ((AstNode.clauses
          ⟨.lAnd, 1, 0, 0, 0, 0, [belowFive, ⟨.lOr, 1, 0, 0, 0, 0, [belowFive, notBelowFive]⟩]⟩).any
            fun clause => clause.all fun n => n.truth leaf) =
          AstNode.truth leaf
            ⟨.lAnd, 1, 0, 0, 0, 0, [belowFive, ⟨.lOr, 1, 0, 0, 0, 0, [belowFive, notBelowFive]⟩]⟩ :=
  toDnf_appends_clauses (.lAnd (.leaf (by decide) (by decide))
    (.lOr (.leaf (by decide) (by decide)) (.leaf (by decide) (by decide)))) [[belowFive]]

end Symsan
