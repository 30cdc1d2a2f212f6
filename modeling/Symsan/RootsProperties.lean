import Symsan.TaskProperties
import Symsan.NormalProperties

/-!
# What `find_roots` builds

`find_roots` walks a branch label down to its comparisons, turning one-bit
`And` and `Or` into `LAnd` and `LOr`, an `Xor` with 1 into `LNot`, and each
comparison into a relational leaf. Take a formula whose boolean labels form a
tree, so that no sub-formula is met twice. Its connectives are one-bit operations
on two formulas, or on a formula and a constant that keeps or negates it. Its
comparisons compare arithmetic terms. Over such a formula the walk returns a
skeleton that is true under exactly the inputs that make the label 1.

Arithmetic terms hold no comparison, so their walks return false whatever they
have visited: only the boolean labels must be met once.

Without negation, the clauses `construct_tasks` derives from that skeleton by
`to_nnf` and `to_dnf` are non-empty conjunctions of the formula's comparisons,
and one of them holds exactly when the branch goes the target way
(`clausesOf_means`). The walk of a 1-bit arithmetic term, and of a comparison
of a formula with a constant, returns false with a cleared value, which
`simplify_land` takes for the constant false: an `And` over either folds to
false, and the branch gets no task.

`strip_zext` is meant to see through zero extensions of a boolean. Its loop
moves `info` to the operand of the `ZExt` before testing the width, so on a
1-bit operand it returns that operand's own first operand (`info->l1`), one
level too deep (`stripZext_zExt_of_bit`). The formulas above therefore ask that
`strip_zext` keep their operands.
-/

set_option autoImplicit false

namespace Symsan

/-! ## Zero extensions of a bit -/

/-- A `ZExt` whose operand is 1 bit wide is stripped to the operand's first
operand, not to the operand. -/
theorem stripZext_zExt_of_bit (t : LabelTable) {label : Nat} (zext : (t label).op = .zExt)
    (bit : (t (t label).l1).size = 1) : stripZext t label = (t (t label).l1).l1 := by
  simp only [stripZext, stripZextFrom, zext, bit, if_true]

/-- Label 1 reads input byte 0, 2 truncates it to one bit and 3 zero-extends
that bit back to a byte. -/
def zextBitTable : LabelTable := fun label =>
  match label with
  | 1 => ⟨0, 0, 0, 0, .input, 8⟩
  | 2 => ⟨1, 0, 0, 0, .trunc, 1⟩
  | 3 => ⟨2, 0, 0, 0, .zExt, 8⟩
  | _ => default

theorem zextBitTable_dag : zextBitTable.Dag := by
  intro label notInput
  match label with
  | 0 | 1 => exact absurd rfl notInput
  | 2 | 3 => decide
  | _ + 4 => exact absurd rfl notInput

/-- On `zext(trunc(in[0]))` the 1-bit operand is label 2, but `strip_zext`
returns label 1, the whole byte: at `in[0] = 2` label 3 is zero and label 1 is
not. -/
theorem stripZext_skips_bit :
    zextBitTable.Dag ∧ (zextBitTable 3).op = .zExt ∧ (zextBitTable 3).l1 = 2 ∧
      (zextBitTable 2).size = 1 ∧ stripZext zextBitTable 3 = 1 ∧
      zextBitTable.value (fun _ => 2) 3 = 0 ∧ zextBitTable.value (fun _ => 2) 1 = 2 :=
  ⟨zextBitTable_dag, rfl, rfl, rfl, stripZext_zExt_of_bit zextBitTable rfl rfl, by decide, by decide⟩

/-! ## Arithmetic terms and formulas -/

/-- Labels whose walk by `find_roots` meets no comparison: constant slots,
input bytes and loads, and every other operation but a comparison over such
labels. `find_roots` walks a multi-bit `And`, `Or` or `Xor` operand by operand
once `strip_zext` keeps its operands. -/
inductive Arith (t : LabelTable) : Nat → Prop
  | const {l : Nat} : l < constOffset → Arith t l
  | operand {l : Nat} : (t l).op = .input ∨ (t l).op = .load → Arith t l
  | node {l : Nat} : (t l).op ≠ .input → (t l).op ≠ .load → (∀ pred, (t l).op ≠ .icmp pred) →
      ((t l).op = .and ∨ (t l).op = .or ∨ (t l).op = .xor →
        (t l).size ≠ 1 ∧ (constOffset ≤ (t l).l1 → stripZext t (t l).l1 = (t l).l1) ∧
          stripZext t (t l).l2 = (t l).l2) →
      Arith t (t l).l1 → Arith t (t l).l2 → Arith t l

/-- A one-bit formula whose boolean labels, below the reserved label and
listed in `labels` in the order `find_roots` meets them, form a tree;
`negated` records an `Xor` with 1. It is
a comparison of arithmetic terms, an `And` or `Or` of width 1 over two
formulas, an `And` with 1 or `Or` with 0 of a formula, or an `Xor` of a formula
with 0 or 1; a constant stands in `l1`, as the tracer places it, and
`strip_zext` keeps every operand. -/
inductive BoolFormula (t : LabelTable) : Nat → List Nat → Bool → Prop
  | compare {l : Nat} {pred : Predicate} : constOffset ≤ l → l < kInitializingLabel →
      (t l).op = .icmp pred → (constOffset ≤ (t l).l1 → stripZext t (t l).l1 = (t l).l1) →
      (constOffset ≤ (t l).l2 → stripZext t (t l).l2 = (t l).l2) →
      Arith t (t l).l1 → Arith t (t l).l2 → BoolFormula t l [l] false
  | connect {l : Nat} {right left : List Nat} {negRight negLeft : Bool} :
      constOffset ≤ l → l < kInitializingLabel → (t l).op = .and ∨ (t l).op = .or →
      (t l).size = 1 → constOffset ≤ (t l).l1 → stripZext t (t l).l1 = (t l).l1 →
      stripZext t (t l).l2 = (t l).l2 → BoolFormula t (t l).l2 right negRight →
      BoolFormula t (t l).l1 left negLeft → BoolFormula t l (l :: (right ++ left)) (negRight || negLeft)
  | identity {l : Nat} {right : List Nat} {negated : Bool} :
      constOffset ≤ l → l < kInitializingLabel →
      (t l).op = .and ∧ (t l).op1 = 1 ∨ (t l).op = .or ∧ (t l).op1 = 0 →
      (t l).size = 1 → (t l).l1 = 0 → stripZext t (t l).l2 = (t l).l2 →
      BoolFormula t (t l).l2 right negated → BoolFormula t l (l :: right) negated
  | xorConst {l : Nat} {right : List Nat} {negated : Bool} :
      constOffset ≤ l → l < kInitializingLabel → (t l).op = .xor → (t l).op1 < 2 →
      (t l).size = 1 → (t l).l1 = 0 → stripZext t (t l).l2 = (t l).l2 →
      BoolFormula t (t l).l2 right negated →
      BoolFormula t l (l :: right) (negated || decide ((t l).op1 = 1))

theorem not_arith_of_bit {t : LabelTable} {l : Nat} (valid : constOffset ≤ l)
    (logic : (t l).op = .and ∨ (t l).op = .or ∨ (t l).op = .xor) (bit : (t l).size = 1) : ¬ Arith t l := by
  intro arith
  cases arith with
  | const below => omega
  | operand leaf => rcases logic with op | op | op <;> rcases leaf with leaf | leaf <;> rw [op] at leaf <;> cases leaf
  | node _ _ _ multibit _ _ => exact (multibit logic).1 bit

theorem BoolFormula.not_arith {t : LabelTable} {L : Nat} {labels : List Nat} {negated : Bool}
    (formula : BoolFormula t L labels negated) : ∀ l ∈ labels, ¬ Arith t l := by
  induction formula with
  | @compare l pred valid _ op _ _ _ _ =>
    intro x member arith
    rw [List.mem_singleton.mp member] at arith
    cases arith with
    | const below => omega
    | operand leaf => rcases leaf with leaf | leaf <;> rw [op] at leaf <;> cases leaf
    | node _ _ notIcmp _ _ _ => exact notIcmp pred op
  | connect valid _ logic bit _ _ _ _ _ rightIH leftIH =>
    intro x member
    rcases List.mem_cons.mp member with rfl | member
    exacts [not_arith_of_bit valid (logic.imp_right .inl) bit,
      (List.mem_append.mp member).elim (rightIH x) (leftIH x)]
  | identity valid _ logic bit _ _ _ rightIH =>
    intro x member
    rcases List.mem_cons.mp member with rfl | member
    exacts [not_arith_of_bit valid (logic.imp (·.1) (.inl ·.1)) bit, rightIH x member]
  | xorConst valid _ op _ bit _ _ _ rightIH =>
    intro x member
    rcases List.mem_cons.mp member with rfl | member
    exacts [not_arith_of_bit valid (.inr (.inr op)) bit, rightIH x member]

/-! ## The visited set -/

/-- A walk from `visited` to `visited'` kept every visited label and added only
labels of `labels` and arithmetic ones. -/
structure Adds (t : LabelTable) (labels visited visited' : List Nat) : Prop where
  grows : visited ⊆ visited'
  added : ∀ l ∈ visited', l ∈ visited ∨ l ∈ labels ∨ Arith t l

section Adds

variable {t : LabelTable} {labels labels' visited visited1 visited2 : List Nat}

theorem Adds.refl : Adds t labels visited visited := ⟨List.Subset.refl _, fun _ member => .inl member⟩

theorem Adds.trans (first : Adds t labels visited visited1) (second : Adds t labels visited1 visited2) :
    Adds t labels visited visited2 :=
  ⟨first.grows.trans second.grows, fun l member => (second.added l member).elim (first.added l) .inr⟩

theorem Adds.mono (adds : Adds t labels visited visited1) (sub : labels ⊆ labels') :
    Adds t labels' visited visited1 :=
  ⟨adds.grows, fun l member => (adds.added l member).imp_right (·.imp_left (sub ·))⟩

theorem Adds.insert {l : Nat} (added : l ∈ labels ∨ Arith t l) :
    Adds t labels visited (visited.insert l) :=
  ⟨fun _ member => List.mem_insert_of_mem member, fun x member => by
    rcases List.mem_insert_iff.mp member with rfl | old
    exacts [.inr added, .inl old]⟩

end Adds

/-! ## One step of `find_roots` -/

section Step

variable {t : LabelTable} {fuel label : Nat} {ret : AstNode} {visited : List Nat}

theorem findRoots_stop (stops : label < constOffset ∨ label = kInitializingLabel ∨ label ∈ visited) :
    findRoots t (fuel + 1) label ret visited = (false, ret, visited) := by
  by_cases invalid : label < constOffset ∨ label = kInitializingLabel
  · rw [findRoots, if_pos invalid]
  · have seen : label ∈ visited := by tauto
    rw [findRoots, if_neg invalid, if_pos seen]

variable (valid : constOffset ≤ label) (notInit : label ≠ kInitializingLabel) (fresh : label ∉ visited)
include valid notInit fresh

theorem findRoots_operand (leaf : (t label).op = .input ∨ (t label).op = .load) :
    findRoots t (fuel + 1) label ret visited = (false, ret, visited.insert label) := by
  rw [findRoots, if_neg (by simp only [not_or]; omega), if_neg fresh]
  simp only [if_pos leaf]

theorem findRoots_and (op : (t label).op = .and) :
    findRoots t (fuel + 1) label ret visited =
      simplifyLand (findRoots t fuel) t (t label) ret (visited.insert label) := by
  rw [findRoots, if_neg (by simp only [not_or]; omega), if_neg fresh]
  simp only [op, if_true, or_self, reduceCtorEq, if_false]

theorem findRoots_or (op : (t label).op = .or) :
    findRoots t (fuel + 1) label ret visited =
      simplifyLor (findRoots t fuel) t (t label) ret (visited.insert label) := by
  rw [findRoots, if_neg (by simp only [not_or]; omega), if_neg fresh]
  simp only [op, if_true, or_self, reduceCtorEq, if_false]

theorem findRoots_xor (op : (t label).op = .xor) :
    findRoots t (fuel + 1) label ret visited =
      simplifyXor (findRoots t fuel) t (t label) ret (visited.insert label) := by
  rw [findRoots, if_neg (by simp only [not_or]; omega), if_neg fresh]
  simp only [op, if_true, or_self, reduceCtorEq, if_false]

theorem findRoots_other (notInput : (t label).op ≠ .input) (notLoad : (t label).op ≠ .load)
    (notAnd : (t label).op ≠ .and) (notOr : (t label).op ≠ .or) (notXor : (t label).op ≠ .xor)
    (notIcmp : ∀ pred, (t label).op ≠ .icmp pred) :
    findRoots t (fuel + 1) label ret visited =
      visitOperands (findRoots t fuel) (t label) ret (visited.insert label) := by
  rw [findRoots, if_neg (by simp only [not_or]; omega), if_neg fresh]
  simp only [notInput, notLoad, notAnd, notOr, notXor, or_self, if_false]

end Step

/-! ## The simplifiers -/

section Simplifiers

variable {recurse : Nat → AstNode → List Nat → Rooted} {t : LabelTable} {info : LabelInfo}
  {ret right left : AstNode} {visited visited1 visited2 : List Nat}

/-- A constant slot is not walked. -/
@[simp] theorem constOffset_le_zero : (constOffset ≤ 0) = False := by decide

theorem lhs_kept (leftKept : constOffset ≤ info.l1 → stripZext t info.l1 = info.l1) :
    (if constOffset ≤ info.l1 then stripZext t info.l1 else 0) = info.l1 := by
  split
  · exact leftKept ‹_›
  · simp only [constOffset] at *
    omega

theorem simplifyLogic_multibit {absorb : Nat} {kind : Kind} (wide : info.size ≠ 1)
    (leftKept : constOffset ≤ info.l1 → stripZext t info.l1 = info.l1)
    (rightKept : stripZext t info.l2 = info.l2) :
    simplifyLogic absorb kind recurse t info ret visited =
      findRootsBoth recurse info.l2 info.l1 ret visited := by
  simp only [simplifyLogic, lhs_kept leftKept, rightKept, ne_eq, wide, not_false_eq_true, and_self,
    if_true]

theorem simplifyXor_multibit (wide : info.size ≠ 1)
    (leftKept : constOffset ≤ info.l1 → stripZext t info.l1 = info.l1)
    (rightKept : stripZext t info.l2 = info.l2) :
    simplifyXor recurse t info ret visited = findRootsBoth recurse info.l2 info.l1 ret visited := by
  simp only [simplifyXor, lhs_kept leftKept, rightKept, ne_eq, wide, not_false_eq_true, and_self,
    if_true]

theorem simplifyLogic_formulas {absorb : Nat} {kind : Kind} (bit : info.size = 1)
    (leftSlot : constOffset ≤ info.l1) (leftKept : stripZext t info.l1 = info.l1)
    (rightKept : stripZext t info.l2 = info.l2)
    (rightWalk : recurse info.l2 AstNode.fresh visited = (true, right, visited1))
    (leftWalk : recurse info.l1 AstNode.fresh visited1 = (true, left, visited2)) :
    simplifyLogic absorb kind recurse t info ret visited =
      (true, { ret with kind, bits := 1, children := ret.children ++ [right, left] }, visited2) := by
  have nonzero : info.l1 ≠ 0 := by simp only [constOffset] at leftSlot; omega
  simp only [simplifyLogic, if_pos leftSlot, leftKept, rightKept, bit, rightWalk, leftWalk, nonzero,
    ne_eq, not_true_eq_false, and_false, if_false, Bool.not_true, Bool.false_eq_true, false_and,
    List.append_assoc, List.singleton_append]

theorem simplifyLogic_identity {absorb : Nat} {kind : Kind} (bit : info.size = 1)
    (constant : info.l1 = 0) (identity : info.op1 ≠ absorb) (rightKept : stripZext t info.l2 = info.l2)
    (rightWalk : recurse info.l2 AstNode.fresh visited = (true, right, visited1)) :
    simplifyLogic absorb kind recurse t info ret visited = (true, right, visited1) := by
  simp only [simplifyLogic, constant, rightKept, bit, rightWalk, identity, constOffset_le_zero,
    if_false, ne_eq, not_true_eq_false, and_false, Bool.not_true, Bool.false_eq_true, false_and, if_true]

theorem simplifyXor_constant (bit : info.size = 1) (constant : info.l1 = 0)
    (rightKept : stripZext t info.l2 = info.l2)
    (rightWalk : recurse info.l2 AstNode.fresh visited = (true, right, visited1)) :
    simplifyXor recurse t info ret visited =
      if info.op1 = 1 then
        (true, { ret with kind := .lNot, bits := 1, children := ret.children ++ [right] }, visited1)
      else (true, right, visited1) := by
  simp only [simplifyXor, constant, rightKept, bit, rightWalk, constOffset_le_zero, if_false, ne_eq,
    not_true_eq_false, and_false, Bool.not_true, Bool.false_eq_true, false_and, if_true]

/-- Walks that meet no comparison: they return false, leave the node they are
handed as it is, and add only arithmetic labels. -/
def ArithWalks (t : LabelTable) (recurse : Nat → AstNode → List Nat → Rooted) (label : Nat) : Prop :=
  ∀ ret visited, ∃ visited', recurse label ret visited = (false, ret, visited') ∧
    Adds t [] visited visited'

theorem findRootsBoth_arith {rhs lhs : Nat} (rightArith : ArithWalks t recurse rhs)
    (leftArith : ArithWalks t recurse lhs) :
    ∃ visited', findRootsBoth recurse rhs lhs ret visited = (false, ret, visited') ∧
      Adds t [] visited visited' := by
  obtain ⟨visited1, rightWalk, rightAdds⟩ := rightArith ret visited
  simp only [findRootsBoth, rightWalk]
  split
  · obtain ⟨visited2, leftWalk, leftAdds⟩ := leftArith ret visited1
    exact ⟨visited2, by rw [leftWalk]; rfl, rightAdds.trans leftAdds⟩
  · exact ⟨visited1, rfl, rightAdds⟩

theorem slot_arith {slot : Nat} (arith : ArithWalks t recurse slot) (node : AstNode) (visited : List Nat) :
    ∃ visited', (if constOffset ≤ slot then recurse slot node visited else (false, node, visited)) =
      (false, node, visited') ∧ Adds t [] visited visited' := by
  split
  · exact arith node visited
  · exact ⟨visited, rfl, .refl⟩

theorem visitOperands_arith (rightArith : ArithWalks t recurse info.l2)
    (leftArith : ArithWalks t recurse info.l1) :
    ∃ visited', visitOperands recurse info ret visited = (false, ret, visited') ∧
      Adds t [] visited visited' := by
  obtain ⟨visited1, rightWalk, rightAdds⟩ := slot_arith rightArith ret visited
  obtain ⟨visited2, leftWalk, leftAdds⟩ := slot_arith leftArith ret visited1
  exact ⟨visited2, by simp only [visitOperands, rightWalk, leftWalk, Bool.or_false],
    rightAdds.trans leftAdds⟩

end Simplifiers

/-! ## Walks of arithmetic terms -/

theorem arithWalks_of_step {t : LabelTable} {l : Nat} (arith : Arith t l)
    (step : ∀ fuel ret visited, constOffset ≤ l → l ≠ kInitializingLabel → l ∉ visited →
      ∃ visited', findRoots t (fuel + 1) l ret visited = (false, ret, visited') ∧
        Adds t [] (visited.insert l) visited') (fuel : Nat) :
    ArithWalks t (findRoots t fuel) l := by
  intro ret visited
  cases fuel with
  | zero => exact ⟨visited, rfl, .refl⟩
  | succ fuel =>
    by_cases stops : l < constOffset ∨ l = kInitializingLabel ∨ l ∈ visited
    · exact ⟨visited, findRoots_stop stops, .refl⟩
    simp only [not_or, not_lt] at stops
    obtain ⟨visited', walk, adds⟩ := step fuel ret visited stops.1 stops.2.1 stops.2.2
    exact ⟨visited', walk, (Adds.insert (.inr arith)).trans adds⟩

/-- `find_roots` returns false on an arithmetic term, with any fuel, node and
visited set, and adds only arithmetic labels. -/
theorem Arith.walks {t : LabelTable} {l : Nat} (arith : Arith t l) (fuel : Nat) :
    ArithWalks t (findRoots t fuel) l := by
  induction arith generalizing fuel with
  | const below =>
    exact arithWalks_of_step (.const below) (fun _ _ _ valid => absurd valid (by omega)) fuel
  | operand leaf =>
    exact arithWalks_of_step (.operand leaf) (fun _ _ _ valid notInit fresh =>
      ⟨_, findRoots_operand valid notInit fresh leaf, .refl⟩) fuel
  | @node l notInput notLoad notIcmp multibit leftArith rightArith leftIH rightIH =>
    refine arithWalks_of_step (.node notInput notLoad notIcmp multibit leftArith rightArith)
      (fun fuel ret visited valid notInit fresh => ?_) fuel
    by_cases logic : (t l).op = .and ∨ (t l).op = .or ∨ (t l).op = .xor
    · obtain ⟨wide, leftKept, rightKept⟩ := multibit logic
      have step : findRoots t (fuel + 1) l ret visited =
          findRootsBoth (findRoots t fuel) (t l).l2 (t l).l1 ret (visited.insert l) := by
        rcases logic with op | op | op
        · rw [findRoots_and valid notInit fresh op, simplifyLand,
            simplifyLogic_multibit wide leftKept rightKept]
        · rw [findRoots_or valid notInit fresh op, simplifyLor,
            simplifyLogic_multibit wide leftKept rightKept]
        · rw [findRoots_xor valid notInit fresh op, simplifyXor_multibit wide leftKept rightKept]
      rw [step]
      exact findRootsBoth_arith (rightIH fuel) (leftIH fuel)
    · simp only [not_or] at logic
      rw [findRoots_other valid notInit fresh notInput notLoad logic.1 logic.2.1 logic.2.2 notIcmp]
      exact visitOperands_arith (rightIH fuel) (leftIH fuel)

/-! ## Values of formulas -/

section Values

variable {t : LabelTable} (input : InputBytes) {L : Nat}

theorem operandOf_label {eval : Nat → Nat} {info : LabelInfo} {slot immediate other : Nat}
    (valid : constOffset ≤ slot) : t.operandOf eval info slot immediate other = (eval slot, t.width slot) :=
  if_pos valid

theorem operandOf_constant {eval : Nat → Nat} {info : LabelInfo} {immediate other : Nat}
    (notConcat : info.op ≠ .concat) :
    t.operandOf eval info 0 immediate other = (immediate % 2 ^ info.size, info.size) := by
  simp only [LabelTable.operandOf, constOffset_le_zero, if_false, LabelTable.constWidth, notConcat]

theorem bit_and {x y : Nat} (first : x < 2) (second : y < 2) :
    decide ((bv 1 x &&& bv 1 y).toNat = 1) = (decide (y = 1) && decide (x = 1)) := by
  interval_cases x <;> interval_cases y <;> decide

theorem bit_or {x y : Nat} (first : x < 2) (second : y < 2) :
    decide ((bv 1 x ||| bv 1 y).toNat = 1) = (decide (y = 1) || decide (x = 1)) := by
  interval_cases x <;> interval_cases y <;> decide

theorem bit_xor {x y : Nat} (first : x < 2) (second : y < 2) :
    decide ((bv 1 x ^^^ bv 1 y).toNat = 1) = (decide (y = 1) != decide (x = 1)) := by
  interval_cases x <;> interval_cases y <;> decide

theorem value_of_op_eq (dag : t.Dag) {o : Op} (op : (t L).op = o) (notInput : o ≠ .input)
    (notLoad : o ≠ .load) :
    t.value input L = o.apply (t L).size (t L).op2
      (t.operandOf (t.value input) (t L) (t L).l1 (t L).op1 (t L).l2)
      (t.operandOf (t.value input) (t L) (t L).l2 (t L).op2 (t L).l1) := by
  rw [value_of_op dag input (op ▸ notInput) (op ▸ notLoad), op]

theorem leafHolds_compare (dag : t.Dag) {pred : Predicate} (op : (t L).op = .icmp pred) (node : AstNode)
    (label : node.label = L) (kind : node.kind = (opMap (.icmp pred)).getD .bool) :
    t.leafHolds input node = decide (t.value input L = 1) := by
  obtain ⟨mapped, found⟩ : ∃ mapped, opMap (.icmp pred) = some mapped := by
    cases pred <;> exact ⟨_, rfl⟩
  rw [value_of_op_eq input dag op nofun nofun, ← opMap_apply found, if_neg nofun]
  simp only [LabelTable.leafHolds, label, kind, found, Option.getD_some]

theorem value_lt_two_of_compare (dag : t.Dag) {pred : Predicate} (op : (t L).op = .icmp pred) :
    t.value input L < 2 := by
  rw [value_of_op_eq input dag op nofun nofun]
  show (if _ then 1 else 0) < 2
  split <;> omega

theorem value_lt_two_of_bit (dag : t.Dag) (logic : (t L).op = .and ∨ (t L).op = .or ∨ (t L).op = .xor)
    (bit : (t L).size = 1) : t.value input L < 2 := by
  rcases logic with op | op | op <;> rw [value_of_op_eq input dag op nofun nofun, bit] <;>
    exact BitVec.isLt _

section Connectives

variable (dag : t.Dag) (bit : (t L).size = 1) {x y : Nat}
  (first : (t.operandOf (t.value input) (t L) (t L).l1 (t L).op1 (t L).l2).1 = x)
  (second : (t.operandOf (t.value input) (t L) (t L).l2 (t L).op2 (t L).l1).1 = y)
  (firstBit : x < 2) (secondBit : y < 2)
include dag bit first second firstBit secondBit

theorem value_and (op : (t L).op = .and) :
    decide (t.value input L = 1) = (decide (y = 1) && decide (x = 1)) := by
  rw [value_of_op_eq input dag op nofun nofun, bit, ← bit_and firstBit secondBit, ← first, ← second]
  rfl

theorem value_or (op : (t L).op = .or) :
    decide (t.value input L = 1) = (decide (y = 1) || decide (x = 1)) := by
  rw [value_of_op_eq input dag op nofun nofun, bit, ← bit_or firstBit secondBit, ← first, ← second]
  rfl

theorem value_xor (op : (t L).op = .xor) :
    decide (t.value input L = 1) = (decide (y = 1) != decide (x = 1)) := by
  rw [value_of_op_eq input dag op nofun nofun, bit, ← bit_xor firstBit secondBit, ← first, ← second]
  rfl

end Connectives

end Values

/-! ## Walks of formulas -/

theorem dnfLeaves_of_relational {node : AstNode} (relational : node.kind.isRelational) :
    node.dnfLeaves = [node] :=
  (dnf_leaf (fun same => by rw [same] at relational; cases relational)
    (fun same => by rw [same] at relational; cases relational) []).2.2

/-- What `find_roots` leaves for the formula `L` walked from `visited`: a
skeleton with boolvalue 0, true under exactly the inputs that make `L` 1;
without negation in the formula, a skeleton without `LNot` whose leaves are the
formula's comparisons, each with the kind `OP_MAP` gives it; and a visited set
that holds `L` and has gained only the formula's labels and arithmetic ones. -/
structure Roots (t : LabelTable) (L : Nat) (labels : List Nat) (negated : Bool)
    (visited : List Nat) (node : AstNode) (visited' : List Nat) : Prop where
  skeleton : Skeleton node
  nnf : negated = false → NnfSkeleton node
  leaves : negated = false → ∀ leaf ∈ node.dnfLeaves, leaf.label ∈ labels ∧
    ∃ pred, (t leaf.label).op = .icmp pred ∧ leaf.kind = (opMap (.icmp pred)).getD .bool
  means : ∀ input, node.truth (t.leafHolds input) = decide (t.value input L = 1)
  adds : Adds t labels visited visited'
  marks : L ∈ visited'
  cleared : node.boolvalue = 0

/-- The walks of a formula from a fresh node, as every call of `find_roots` on a
boolean operand makes them, and a visited set that holds none of its labels:
each returns true and the formula's roots. -/
def Walks (t : LabelTable) (recurse : Nat → AstNode → List Nat → Rooted) (L : Nat)
    (labels : List Nat) (negated : Bool) : Prop :=
  ∀ visited : List Nat, (∀ l ∈ labels, l ∉ visited) →
    ∃ node visited', recurse L AstNode.fresh visited = (true, node, visited') ∧
      Roots t L labels negated visited node visited'

section Formulas

variable {t : LabelTable} {L : Nat} {labels : List Nat} {negated : Bool}

theorem BoolFormula.valid (formula : BoolFormula t L labels negated) : constOffset ≤ L := by
  cases formula <;> assumption

theorem BoolFormula.labelled (formula : BoolFormula t L labels negated) : L < kInitializingLabel := by
  cases formula <;> assumption

theorem BoolFormula.value_lt_two (dag : t.Dag) (formula : BoolFormula t L labels negated)
    (input : InputBytes) : t.value input L < 2 := by
  cases formula with
  | compare _ _ op => exact value_lt_two_of_compare input dag op
  | connect _ _ logic bit => exact value_lt_two_of_bit input dag (logic.imp_right .inl) bit
  | identity _ _ logic bit => exact value_lt_two_of_bit input dag (logic.imp (·.1) (.inl ·.1)) bit
  | xorConst _ _ op _ bit => exact value_lt_two_of_bit input dag (.inr (.inr op)) bit

theorem keptSlot_arith {recurse : Nat → AstNode → List Nat → Rooted} {slot : Nat}
    (kept : constOffset ≤ slot → stripZext t slot = slot) (arith : ArithWalks t recurse slot)
    (visited : List Nat) :
    ∃ visited', (if constOffset ≤ slot then recurse (stripZext t slot) AstNode.fresh visited
      else (false, AstNode.fresh, visited)) = (false, AstNode.fresh, visited') ∧
      Adds t [] visited visited' := by
  split
  · rw [kept ‹_›]
    exact arith _ _
  · exact ⟨_, rfl, .refl⟩

theorem unvisited_insert {part : List Nat} {visited : List Nat} (outside : L ∉ part)
    (unvisited : ∀ l ∈ part, l ∉ visited) : ∀ l ∈ part, l ∉ visited.insert L := fun l member seen =>
  (List.mem_insert_iff.mp seen).elim (fun same => outside (same ▸ member)) (unvisited l member)

variable (dag : t.Dag) {fuel : Nat}
include dag

theorem walks_compare {pred : Predicate} (valid : constOffset ≤ L) (labelled : L < kInitializingLabel)
    (op : (t L).op = .icmp pred) (leftKept : constOffset ≤ (t L).l1 → stripZext t (t L).l1 = (t L).l1)
    (rightKept : constOffset ≤ (t L).l2 → stripZext t (t L).l2 = (t L).l2)
    (leftArith : Arith t (t L).l1) (rightArith : Arith t (t L).l2) :
    Walks t (findRoots t (fuel + 1)) L [L] false := by
  intro visited unvisited
  have fresh : L ∉ visited := unvisited L (List.mem_singleton_self L)
  obtain ⟨visited1, leftWalk, leftAdds⟩ :=
    keptSlot_arith leftKept (leftArith.walks fuel) (visited.insert L)
  obtain ⟨visited2, rightWalk, rightAdds⟩ := keptSlot_arith rightKept (rightArith.walks fuel) visited1
  have relational : ((opMap (.icmp pred)).getD .bool).isRelational := by cases pred <;> rfl
  refine ⟨{ AstNode.fresh with bits := 1, kind := (opMap (.icmp pred)).getD .bool, label := L },
    visited2, ?_, .leaf relational rfl, fun _ => .leaf relational rfl, fun _ leaf member => ?_, fun input => ?_,
    (Adds.insert (.inl (List.mem_singleton_self L))).trans ((leftAdds.trans rightAdds).mono (List.nil_subset _)),
    (leftAdds.trans rightAdds).grows (List.mem_insert_self L visited), rfl⟩
  · rw [findRoots, if_neg (by simp only [not_or]; omega), if_neg fresh]
    simp only [op, reduceCtorEq, or_self, if_false, leftWalk, rightWalk, Bool.false_eq_true]
  · rw [dnfLeaves_of_relational relational, List.mem_singleton] at member
    subst member
    exact ⟨List.mem_singleton_self L, pred, op, rfl⟩
  · rw [AstNode.truth_relational relational]
    exact leafHolds_compare input dag op _ rfl rfl

theorem walks_connect {right left : List Nat} {negRight negLeft : Bool} (valid : constOffset ≤ L)
    (labelled : L < kInitializingLabel) (logic : (t L).op = .and ∨ (t L).op = .or)
    (bit : (t L).size = 1) (leftSlot : constOffset ≤ (t L).l1) (leftKept : stripZext t (t L).l1 = (t L).l1)
    (rightKept : stripZext t (t L).l2 = (t L).l2) (rightFormula : BoolFormula t (t L).l2 right negRight)
    (leftFormula : BoolFormula t (t L).l1 left negLeft) (distinct : (L :: (right ++ left)).Nodup)
    (rightWalks : Walks t (findRoots t fuel) (t L).l2 right negRight)
    (leftWalks : Walks t (findRoots t fuel) (t L).l1 left negLeft) :
    Walks t (findRoots t (fuel + 1)) L (L :: (right ++ left)) (negRight || negLeft) := by
  intro visited unvisited
  have fresh : L ∉ visited := unvisited L (List.mem_cons_self _ _)
  obtain ⟨outside, parts⟩ := List.nodup_cons.mp distinct
  have disjoint := (List.nodup_append.mp parts).2.2
  obtain ⟨rightNode, visited1, rightWalk, rightRoots⟩ := rightWalks (visited.insert L)
    (unvisited_insert (fun inside => outside (List.mem_append_left _ inside))
      fun l member => unvisited l (List.mem_cons_of_mem _ (List.mem_append_left _ member)))
  obtain ⟨leftNode, visited2, leftWalk, leftRoots⟩ := leftWalks visited1 fun l member seen => by
    rcases rightRoots.adds.added l seen with inserted | onRight | arith
    · exact unvisited_insert (fun inside => outside (List.mem_append_right _ inside))
        (fun l member => unvisited l (List.mem_cons_of_mem _ (List.mem_append_right _ member)))
        l member inserted
    · exact disjoint onRight member
    · exact leftFormula.not_arith l member arith
  have adds : Adds t (L :: (right ++ left)) visited visited2 :=
    ((Adds.insert (.inl (List.mem_cons_self _ _))).trans (rightRoots.adds.mono
      fun _ member => List.mem_cons_of_mem _ (List.mem_append_left _ member))).trans
      (leftRoots.adds.mono fun _ member => List.mem_cons_of_mem _ (List.mem_append_right _ member))
  have marks : L ∈ visited2 := leftRoots.adds.grows (rightRoots.adds.grows (List.mem_insert_self L visited))
  have first (input : InputBytes) :
      (t.operandOf (t.value input) (t L) (t L).l1 (t L).op1 (t L).l2).1 = t.value input (t L).l1 := by
    rw [operandOf_label leftSlot]
  have second (input : InputBytes) :
      (t.operandOf (t.value input) (t L) (t L).l2 (t L).op2 (t L).l1).1 = t.value input (t L).l2 := by
    rw [operandOf_label rightFormula.valid]
  have nnf : (negRight || negLeft) = false → negRight = false ∧ negLeft = false :=
    Bool.or_eq_false_iff.mp
  have leaves (none : (negRight || negLeft) = false) :
      ∀ leaf ∈ rightNode.dnfLeaves ++ leftNode.dnfLeaves, leaf.label ∈ L :: (right ++ left) ∧
        ∃ pred, (t leaf.label).op = .icmp pred ∧ leaf.kind = (opMap (.icmp pred)).getD .bool :=
    fun leaf member => (List.mem_append.mp member).elim
      (fun onRight => (rightRoots.leaves (nnf none).1 leaf onRight).imp_left
        fun inside => List.mem_cons_of_mem _ (List.mem_append_left _ inside))
      (fun onLeft => (leftRoots.leaves (nnf none).2 leaf onLeft).imp_left
        fun inside => List.mem_cons_of_mem _ (List.mem_append_right _ inside))
  rcases logic with op | op
  · refine ⟨⟨.lAnd, 1, 0, 0, 0, 0, [rightNode, leftNode]⟩, visited2, ?_,
      .lAnd rightRoots.skeleton leftRoots.skeleton,
      fun none => .lAnd (rightRoots.nnf (nnf none).1) (leftRoots.nnf (nnf none).2), leaves,
      fun input => ?_, adds, marks, rfl⟩
    · rw [findRoots_and valid labelled.ne fresh op, simplifyLand,
        simplifyLogic_formulas bit leftSlot leftKept rightKept rightWalk leftWalk]
      rfl
    · rw [AstNode.truth_lAnd, rightRoots.means, leftRoots.means, value_and input dag bit (first input)
        (second input) (leftFormula.value_lt_two dag input) (rightFormula.value_lt_two dag input) op]
  · refine ⟨⟨.lOr, 1, 0, 0, 0, 0, [rightNode, leftNode]⟩, visited2, ?_,
      .lOr rightRoots.skeleton leftRoots.skeleton,
      fun none => .lOr (rightRoots.nnf (nnf none).1) (leftRoots.nnf (nnf none).2), leaves,
      fun input => ?_, adds, marks, rfl⟩
    · rw [findRoots_or valid labelled.ne fresh op, simplifyLor,
        simplifyLogic_formulas bit leftSlot leftKept rightKept rightWalk leftWalk]
      rfl
    · rw [AstNode.truth_lOr, rightRoots.means, leftRoots.means, value_or input dag bit (first input)
        (second input) (leftFormula.value_lt_two dag input) (rightFormula.value_lt_two dag input) op]

theorem walks_identity {right : List Nat} (valid : constOffset ≤ L) (labelled : L < kInitializingLabel)
    (logic : (t L).op = .and ∧ (t L).op1 = 1 ∨ (t L).op = .or ∧ (t L).op1 = 0)
    (bit : (t L).size = 1) (constant : (t L).l1 = 0) (rightKept : stripZext t (t L).l2 = (t L).l2)
    (rightFormula : BoolFormula t (t L).l2 right negated) (distinct : (L :: right).Nodup)
    (rightWalks : Walks t (findRoots t fuel) (t L).l2 right negated) :
    Walks t (findRoots t (fuel + 1)) L (L :: right) negated := by
  intro visited unvisited
  have fresh : L ∉ visited := unvisited L (List.mem_cons_self _ _)
  obtain ⟨rightNode, visited1, rightWalk, rightRoots⟩ := rightWalks (visited.insert L)
    (unvisited_insert (List.nodup_cons.mp distinct).1 fun l member => unvisited l (List.mem_cons_of_mem _ member))
  have adds : Adds t (L :: right) visited visited1 :=
    (Adds.insert (.inl (List.mem_cons_self _ _))).trans
      (rightRoots.adds.mono fun _ member => List.mem_cons_of_mem _ member)
  have second (input : InputBytes) :
      (t.operandOf (t.value input) (t L) (t L).l2 (t L).op2 (t L).l1).1 = t.value input (t L).l2 := by
    rw [operandOf_label rightFormula.valid]
  refine ⟨rightNode, visited1, ?_, rightRoots.skeleton, rightRoots.nnf,
    fun none leaf member => (rightRoots.leaves none leaf member).imp_left (List.mem_cons_of_mem _),
    fun input => ?_, adds, rightRoots.adds.grows (List.mem_insert_self L visited), rightRoots.cleared⟩
  all_goals rcases logic with ⟨op, one⟩ | ⟨op, zero⟩
  · rw [findRoots_and valid labelled.ne fresh op, simplifyLand,
      simplifyLogic_identity bit constant (by omega) rightKept rightWalk]
  · rw [findRoots_or valid labelled.ne fresh op, simplifyLor,
      simplifyLogic_identity bit constant (by omega) rightKept rightWalk]
  · rw [rightRoots.means, value_and input dag bit (x := 1)
      (by rw [constant, operandOf_constant (by rw [op]; exact nofun), one, bit]; rfl)
      (second input) (by omega) (rightFormula.value_lt_two dag input) op,
      decide_eq_true (rfl : (1 : Nat) = 1), Bool.and_true]
  · rw [rightRoots.means, value_or input dag bit (x := 0)
      (by rw [constant, operandOf_constant (by rw [op]; exact nofun), zero]; rfl)
      (second input) (by omega) (rightFormula.value_lt_two dag input) op,
      decide_eq_false (by decide : (0 : Nat) ≠ 1), Bool.or_false]

theorem walks_xorConst {right : List Nat} (valid : constOffset ≤ L) (labelled : L < kInitializingLabel)
    (op : (t L).op = .xor) (small : (t L).op1 < 2) (bit : (t L).size = 1) (constant : (t L).l1 = 0)
    (rightKept : stripZext t (t L).l2 = (t L).l2) (rightFormula : BoolFormula t (t L).l2 right negated)
    (distinct : (L :: right).Nodup) (rightWalks : Walks t (findRoots t fuel) (t L).l2 right negated) :
    Walks t (findRoots t (fuel + 1)) L (L :: right) (negated || decide ((t L).op1 = 1)) := by
  intro visited unvisited
  have fresh : L ∉ visited := unvisited L (List.mem_cons_self _ _)
  obtain ⟨rightNode, visited1, rightWalk, rightRoots⟩ := rightWalks (visited.insert L)
    (unvisited_insert (List.nodup_cons.mp distinct).1 fun l member => unvisited l (List.mem_cons_of_mem _ member))
  have adds : Adds t (L :: right) visited visited1 :=
    (Adds.insert (.inl (List.mem_cons_self _ _))).trans
      (rightRoots.adds.mono fun _ member => List.mem_cons_of_mem _ member)
  have marks : L ∈ visited1 := rightRoots.adds.grows (List.mem_insert_self L visited)
  have means (input : InputBytes) :
      decide (t.value input L = 1) = (decide (t.value input (t L).l2 = 1) != decide ((t L).op1 = 1)) := by
    refine value_xor input dag bit ?_ (by rw [operandOf_label rightFormula.valid]) small
      (rightFormula.value_lt_two dag input) op
    rw [constant, operandOf_constant (by rw [op]; exact nofun), bit, Nat.pow_one, Nat.mod_eq_of_lt small]
  have walk : findRoots t (fuel + 1) L AstNode.fresh visited =
      simplifyXor (findRoots t fuel) t (t L) AstNode.fresh (visited.insert L) :=
    findRoots_xor valid labelled.ne fresh op
  rw [simplifyXor_constant bit constant rightKept rightWalk] at walk
  by_cases one : (t L).op1 = 1
  · rw [if_pos one] at walk
    have negates : (negated || decide ((t L).op1 = 1)) ≠ false := by
      simp only [one, decide_True, Bool.or_true, ne_eq, Bool.true_eq_false, not_false_eq_true]
    refine ⟨⟨.lNot, 1, 0, 0, 0, 0, [rightNode]⟩, visited1, walk, .lNot rightRoots.skeleton,
      fun none => absurd none negates, fun none => absurd none negates, fun input => ?_, adds, marks, rfl⟩
    rw [means, one, decide_eq_true (rfl : (1 : Nat) = 1), Bool.bne_true, ← rightRoots.means]
    rfl
  · rw [if_neg one] at walk
    have keeps : (negated || decide ((t L).op1 = 1)) = negated := by
      simp only [one, decide_False, Bool.or_false]
    refine ⟨rightNode, visited1, walk, rightRoots.skeleton, fun none => rightRoots.nnf (keeps ▸ none),
      fun none leaf member => (rightRoots.leaves (keeps ▸ none) leaf member).imp_left (List.mem_cons_of_mem _),
      fun input => ?_, adds, marks, rightRoots.cleared⟩
    rw [means, rightRoots.means, decide_eq_false one, Bool.bne_false]

/-- `find_roots` on a formula, with fuel above its label, from a fresh node and a
visited set that holds none of its boolean labels, returns true and the
formula's roots. -/
theorem BoolFormula.walks (formula : BoolFormula t L labels negated) (distinct : labels.Nodup) :
    ∀ fuel, L < fuel → Walks t (findRoots t fuel) L labels negated := by
  induction formula with
  | compare valid labelled op leftKept rightKept leftArith rightArith =>
    rintro (_ | fuel) enough
    · omega
    · exact walks_compare dag valid labelled op leftKept rightKept leftArith rightArith
  | @connect l right left _ _ valid labelled logic bit leftSlot leftKept rightKept rightFormula leftFormula
      rightIH leftIH =>
    rintro (_ | fuel) enough
    · omega
    have binary : (t l).op ≠ .input ∧ (t l).op.binary := by
      rcases logic with op | op <;> rw [op] <;> exact ⟨nofun, rfl⟩
    have below := dag l binary.1
    obtain ⟨rightDistinct, leftDistinct, _⟩ := List.nodup_append.mp (List.nodup_cons.mp distinct).2
    exact walks_connect dag valid labelled logic bit leftSlot leftKept rightKept rightFormula leftFormula
      distinct (rightIH rightDistinct fuel (by have := below.2 binary.2; omega))
      (leftIH leftDistinct fuel (by omega))
  | @identity l _ _ valid labelled logic bit constant rightKept rightFormula rightIH =>
    rintro (_ | fuel) enough
    · omega
    have binary : (t l).op ≠ .input ∧ (t l).op.binary := by
      rcases logic with ⟨op, _⟩ | ⟨op, _⟩ <;> rw [op] <;> exact ⟨nofun, rfl⟩
    have below := (dag l binary.1).2 binary.2
    exact walks_identity dag valid labelled logic bit constant rightKept rightFormula distinct
      (rightIH (List.nodup_cons.mp distinct).2 fuel (by omega))
  | @xorConst l _ _ valid labelled op small bit constant rightKept rightFormula rightIH =>
    rintro (_ | fuel) enough
    · omega
    have below := (dag l (by rw [op]; exact nofun)).2 (by rw [op]; rfl)
    exact walks_xorConst dag valid labelled op small bit constant rightKept rightFormula distinct
      (rightIH (List.nodup_cons.mp distinct).2 fuel (by omega))

end Formulas

/-! ## The root and the clauses of a formula -/

section Clauses

variable {node : AstNode}

theorem Skeleton.kind_ne_bool (skeleton : Skeleton node) : node.kind ≠ .bool := by
  cases skeleton with
  | leaf relational => exact fun constant => by rw [constant] at relational; cases relational
  | _ => exact nofun

theorem NnfSkeleton.andOrTree (skeleton : NnfSkeleton node) : AndOrTree node := by
  induction skeleton with
  | leaf relational =>
    exact .leaf (fun same => by rw [same] at relational; cases relational)
      (fun same => by rw [same] at relational; cases relational)
  | lAnd _ _ leftTree rightTree => exact .lAnd leftTree rightTree
  | lOr _ _ leftTree rightTree => exact .lOr leftTree rightTree

theorem NnfSkeleton.dnfLeaves_relational (skeleton : NnfSkeleton node) :
    ∀ leaf ∈ node.dnfLeaves, leaf.kind.isRelational := by
  induction skeleton with
  | leaf relational =>
    intro leaf member
    rw [dnfLeaves_of_relational relational, List.mem_singleton] at member
    exact member ▸ relational
  | lAnd _ _ leftIH rightIH | lOr _ _ leftIH rightIH =>
    simp only [AstNode.dnfLeaves_lAnd, AstNode.dnfLeaves_lOr, List.mem_append]
    exact fun leaf member => member.elim (leftIH leaf) (rightIH leaf)

theorem NnfSkeleton.dnfLeaves_toNnf (skeleton : NnfSkeleton node) (expected : Bool) :
    ∀ leaf ∈ (toNnf expected node).dnfLeaves, ∃ original ∈ node.dnfLeaves,
      leaf.label = original.label ∧
        leaf.kind = if expected then original.kind else negateCmp original.kind := by
  induction skeleton generalizing expected with
  | @leaf node relational childless =>
    obtain ⟨kind, bits, label, index, hash, value, children⟩ := node
    subst childless
    intro leaf member
    rw [toNnf_leaf] at member
    have kept : (if expected then kind else negateCmp kind).isRelational := by
      cases expected
      exacts [negateCmp_isRelational relational, relational]
    rw [dnfLeaves_of_relational kept, List.mem_singleton] at member
    subst member
    exact ⟨⟨kind, bits, label, index, hash, value, []⟩,
      (dnfLeaves_of_relational relational).symm ▸ List.mem_singleton_self _, rfl, rfl⟩
  | lAnd _ _ leftIH rightIH | lOr _ _ leftIH rightIH =>
    intro leaf member
    cases expected <;>
      simp only [toNnf_false_lAnd, toNnf_true_lAnd, toNnf_false_lOr, toNnf_true_lOr,
        AstNode.dnfLeaves_lAnd, AstNode.dnfLeaves_lOr, List.mem_append] at member ⊢ <;>
      rcases member with member | member
    all_goals first
      | obtain ⟨original, inside, same⟩ := leftIH _ leaf member; exact ⟨original, .inl inside, same⟩
      | obtain ⟨original, inside, same⟩ := rightIH _ leaf member; exact ⟨original, .inr inside, same⟩

theorem NnfSkeleton.toNnf_nnf (skeleton : NnfSkeleton node) (expected : Bool) :
    NnfSkeleton (toNnf expected node) := by
  induction skeleton generalizing expected with
  | @leaf node relational childless =>
    obtain ⟨kind, bits, label, index, hash, value, children⟩ := node
    subst childless
    rw [toNnf_leaf]
    cases expected
    exacts [.leaf (negateCmp_isRelational relational) rfl, .leaf relational rfl]
  | lAnd _ _ leftIH rightIH =>
    cases expected
    exacts [.lOr (leftIH false) (rightIH false), .lAnd (leftIH true) (rightIH true)]
  | lOr _ _ leftIH rightIH =>
    cases expected
    exacts [.lAnd (leftIH false) (rightIH false), .lOr (leftIH true) (rightIH true)]

theorem NnfSkeleton.toNnf_truth (skeleton : NnfSkeleton node) (leaf : AstNode → Bool)
    (negates : ∀ kind bits label index hash value, kind.isRelational →
      leaf ⟨negateCmp kind, bits, label, index, hash, value, []⟩ =
        !leaf ⟨kind, bits, label, index, hash, value, []⟩) (expected : Bool) :
    (toNnf expected node).truth leaf = polar expected (node.truth leaf) := by
  induction skeleton generalizing expected with
  | @leaf node relational childless =>
    obtain ⟨kind, bits, label, index, hash, value, children⟩ := node
    subst childless
    rw [toNnf_leaf, AstNode.truth_relational relational]
    cases expected
    · rw [AstNode.truth_relational (negateCmp_isRelational relational)]
      exact negates kind bits label index hash value relational
    · exact AstNode.truth_relational relational
  | lAnd _ _ leftIH rightIH =>
    cases expected
    · simp only [toNnf_false_lAnd, AstNode.truth_lOr, AstNode.truth_lAnd, leftIH, rightIH, polar,
        Bool.not_and]
    · simp only [toNnf_true_lAnd, AstNode.truth_lAnd, leftIH, rightIH, polar]
  | lOr _ _ leftIH rightIH =>
    cases expected
    · simp only [toNnf_false_lOr, AstNode.truth_lAnd, AstNode.truth_lOr, leftIH, rightIH, polar,
        Bool.not_or]
    · simp only [toNnf_true_lOr, AstNode.truth_lOr, leftIH, rightIH, polar]

variable {t : LabelTable} (input : InputBytes)

theorem leafHolds_negateCmp {kind : Kind} (relational : kind.isRelational)
    (bits label index hash value : Nat) :
    t.leafHolds input ⟨negateCmp kind, bits, label, index, hash, value, []⟩ =
      !t.leafHolds input ⟨kind, bits, label, index, hash, value, []⟩ := by
  simp only [LabelTable.leafHolds, negateCmp_apply relational, decide_not]

theorem someClauseHolds_truth {clauses : Formula}
    (relational : ∀ clause ∈ clauses, ∀ leaf ∈ clause, leaf.kind.isRelational) :
    (clauses.any fun clause => clause.all fun leaf => leaf.truth (t.leafHolds input)) =
      t.someClauseHolds input clauses := by
  rw [LabelTable.someClauseHolds, Bool.eq_iff_iff]
  simp only [List.any_eq_true, List.all_eq_true]
  exact exists_congr fun clause => and_congr_right fun member => forall₂_congr fun leaf inClause => by
    rw [AstNode.truth_relational (relational clause member leaf inClause)]

end Clauses

/-! ## Two byte comparisons under one `And` -/

/-- Labels 1 and 2 read input bytes 0 and 1, 3 tests byte 0 for 5 and 4 tests
byte 1 below 7, both at 8 bits, and 5 is their one-bit `And`. -/
def conjunctionTable : LabelTable := fun label =>
  match label with
  | 1 => ⟨0, 0, 0, 0, .input, 8⟩
  | 2 => ⟨0, 0, 1, 0, .input, 8⟩
  | 3 => ⟨1, 0, 0, 5, .icmp .bveq, 8⟩
  | 4 => ⟨2, 0, 0, 7, .icmp .bvult, 8⟩
  | 5 => ⟨3, 4, 0, 0, .and, 1⟩
  | _ => default

theorem conjunctionTable_dag : conjunctionTable.Dag := by
  intro label notInput
  match label with
  | 0 | 1 | 2 => exact absurd rfl notInput
  | 3 | 4 | 5 => decide
  | _ + 6 => exact absurd rfl notInput

theorem conjunctionTable_formula : BoolFormula conjunctionTable 5 [5, 4, 3] false :=
  @BoolFormula.connect conjunctionTable 5 [4] [3] false false (by decide) (by decide) (.inl rfl) rfl
    (by decide) (by decide) (by decide)
    (.compare (by decide) (by decide) rfl (fun _ => by decide) (fun below => absurd below (by decide))
      (.operand (.inl rfl)) (.const (by decide)))
    (.compare (by decide) (by decide) rfl (fun _ => by decide) (fun below => absurd below (by decide))
      (.operand (.inl rfl)) (.const (by decide)))

section Pipeline

variable {t : LabelTable} {L : Nat} {labels : List Nat} {negated : Bool}

/-- The root `construct_tasks` takes from a one-bit formula over a DAG whose
boolean labels form a tree: `find_roots` returns true and a skeleton, without
`LNot` when the formula negates nothing, that holds under exactly the inputs
that make the branch label 1. -/
theorem rootOf_means (dag : t.Dag) (formula : BoolFormula t L labels negated)
    (distinct : labels.Nodup) :
    (findRoots t kInitializingLabel L AstNode.fresh []).1 = true ∧ Skeleton (rootOf t L) ∧
      (negated = false → NnfSkeleton (rootOf t L)) ∧
      ∀ input, (rootOf t L).truth (t.leafHolds input) = decide (t.value input L = 1) := by
  obtain ⟨node, _, walk, roots⟩ := formula.walks dag distinct kInitializingLabel formula.labelled
    [] fun _ _ => List.not_mem_nil _
  rw [rootOf, walk]
  exact ⟨rfl, roots.skeleton, roots.nnf, roots.means⟩

/-- The root of label 5 of `conjunctionTable` is a skeleton in negation normal
form, read as label 5. -/
theorem conjunctionTable_root : conjunctionTable.Dag ∧
    (findRoots conjunctionTable kInitializingLabel 5 AstNode.fresh []).1 = true ∧
    Skeleton (rootOf conjunctionTable 5) ∧ NnfSkeleton (rootOf conjunctionTable 5) ∧
    ∀ input, (rootOf conjunctionTable 5).truth (conjunctionTable.leafHolds input) =
      decide (conjunctionTable.value input 5 = 1) := by
  obtain ⟨walked, skeleton, nnf, means⟩ :=
    rootOf_means conjunctionTable_dag conjunctionTable_formula (by decide)
  exact ⟨conjunctionTable_dag, walked, skeleton, nnf rfl, means⟩

/-- For a formula without negation, the clauses `construct_tasks` hands to
`construct_task` are non-empty conjunctions of the formula's comparisons, each
with the kind `OP_MAP` gives it for a true target and its negation for a false
one, and some clause holds under exactly the inputs that send the branch the
target way. -/
theorem clausesOf_means (dag : t.Dag) (formula : BoolFormula t L labels false)
    (distinct : labels.Nodup) (targetDirection : Bool) :
    ∃ clauses, clausesOf t targetDirection L = some clauses ∧
      (∀ clause ∈ clauses, clause ≠ [] ∧ ∀ leaf ∈ clause, leaf.label ∈ labels ∧
        ∃ pred, (t leaf.label).op = .icmp pred ∧ leaf.kind = if targetDirection
          then (opMap (.icmp pred)).getD .bool else negateCmp ((opMap (.icmp pred)).getD .bool)) ∧
      ∀ input, t.someClauseHolds input clauses = (decide (t.value input L = 1) == targetDirection) := by
  obtain ⟨node, _, walk, roots⟩ := formula.walks dag distinct kInitializingLabel formula.labelled
    [] fun _ _ => List.not_mem_nil _
  have root : rootOf t L = node := by rw [rootOf, walk]
  have normal := (roots.nnf rfl).toNnf_nnf targetDirection
  have clauses := normal.andOrTree.clauses_leaves
  have relational : ∀ clause ∈ (toNnf targetDirection node).clauses, ∀ leaf ∈ clause,
      leaf.kind.isRelational := fun clause member leaf inClause =>
    normal.dnfLeaves_relational leaf ((clauses clause member).2 leaf inClause)
  refine ⟨(toNnf targetDirection node).clauses, ?_, fun clause member =>
    ⟨(clauses clause member).1, fun leaf inClause => ?_⟩, fun input => ?_⟩
  · simp only [clausesOf, root, if_neg roots.skeleton.kind_ne_bool, normal.andOrTree.toDnf_eq,
      List.nil_append]
  · obtain ⟨original, inside, label, kind⟩ :=
      (roots.nnf rfl).dnfLeaves_toNnf targetDirection leaf ((clauses clause member).2 leaf inClause)
    obtain ⟨labelled, pred, op, mapped⟩ := roots.leaves rfl original inside
    rw [label, kind, mapped]
    exact ⟨labelled, pred, op, rfl⟩
  · rw [← someClauseHolds_truth input relational, normal.andOrTree.clauses_truth,
      (roots.nnf rfl).toNnf_truth _ (fun _ bits label index hash value relational =>
        leafHolds_negateCmp input relational bits label index hash value) targetDirection,
      roots.means]
    cases targetDirection <;> cases decide (t.value input L = 1) <;> rfl

/-- Driving label 5 of `conjunctionTable` to false: the clauses negate the
comparisons 4 and 3, and some clause holds exactly when the conjunction is
false. -/
theorem conjunctionTable_clauses : ∃ clauses, clausesOf conjunctionTable false 5 = some clauses ∧
    (∀ clause ∈ clauses, clause ≠ [] ∧ ∀ leaf ∈ clause, leaf.label ∈ [5, 4, 3] ∧
      ∃ pred, (conjunctionTable leaf.label).op = .icmp pred ∧
        leaf.kind = negateCmp ((opMap (.icmp pred)).getD .bool)) ∧
    ∀ input, conjunctionTable.someClauseHolds input clauses =
      (decide (conjunctionTable.value input 5 = 1) == false) :=
  clausesOf_means conjunctionTable_dag conjunctionTable_formula (by decide) false

end Pipeline

/-! ## Operands read as constants

`simplify_land` takes a second operand whose walk returns false for a constant,
the boolvalue of the node the walk leaves. That is right for a folded constant,
but a one-bit arithmetic term walks to false too, and so does a comparison of a
formula with a constant: its walk builds the formula's skeleton and then, walking
the operands again, finds them visited and returns false. Either operand folds
the `And` to the constant false, and `construct_tasks` builds no task for it. The
model leaves out the asserts: a build that keeps them aborts at
`assert(right->bits() == 1)` instead. -/

section Folding

variable {t : LabelTable} {A : Nat}

theorem simplifyLand_folds {recurse : Nat → AstNode → List Nat → Rooted} {info : LabelInfo}
    {ret right : AstNode} {visited visited1 : List Nat} (bit : info.size = 1)
    (rightWalk : recurse (stripZext t info.l2) AstNode.fresh visited = (false, right, visited1))
    (cleared : right.boolvalue = 0) :
    (simplifyLand recurse t info ret visited).2.1.kind = .bool := by
  simp only [simplifyLand, simplifyLogic, bit, rightWalk, cleared, ne_eq, not_true_eq_false, and_false,
    if_false, Bool.not_false, and_self, if_true]

theorem constructTasks_and_folds (xxhash : Nat → Nat → Nat → Nat) (buf : List Nat)
    (valid : constOffset ≤ A) (labelled : A < kInitializingLabel) (op : (t A).op = .and)
    (bit : (t A).size = 1) {right : AstNode} {visited1 : List Nat}
    (rightWalk : findRoots t (kInitializingLabel - 1) (stripZext t (t A).l2) AstNode.fresh [A] =
      (false, right, visited1))
    (cleared : right.boolvalue = 0) (targetDirection : Bool) (cache : ExprCache) :
    constructTasks xxhash t buf targetDirection A cache = .ok (false, [], cache) := by
  have folded : (rootOf t A).kind = .bool := by
    rw [rootOf, show kInitializingLabel = kInitializingLabel - 1 + 1 from rfl,
      findRoots_and valid labelled.ne (List.not_mem_nil A) op]
    exact simplifyLand_folds bit rightWalk cleared
  simp only [constructTasks, clausesOf, folded, if_true]
  rfl

/-- A one-bit `And` whose second operand is a one-bit arithmetic term, such as a
truncated input byte, folds to the constant false whatever its first operand:
`construct_tasks` builds no task for either direction. -/
theorem constructTasks_and_arith (xxhash : Nat → Nat → Nat → Nat) (buf : List Nat)
    (valid : constOffset ≤ A) (labelled : A < kInitializingLabel) (op : (t A).op = .and)
    (bit : (t A).size = 1) (rightKept : stripZext t (t A).l2 = (t A).l2) (rightArith : Arith t (t A).l2)
    (targetDirection : Bool) (cache : ExprCache) :
    constructTasks xxhash t buf targetDirection A cache = .ok (false, [], cache) := by
  obtain ⟨_, walk, -⟩ := rightArith.walks (kInitializingLabel - 1) AstNode.fresh [A]
  rw [← rightKept] at walk
  exact constructTasks_and_folds xxhash buf valid labelled op bit walk rfl targetDirection cache

/-- Labels 1 and 2 read input bytes 0 and 1, 3 tests byte 0 for 5, 4 truncates
byte 1 to its low bit, and 5 is the one-bit `And` of 3 and 4. -/
def truncTable : LabelTable := fun label =>
  match label with
  | 1 => ⟨0, 0, 0, 0, .input, 8⟩
  | 2 => ⟨0, 0, 1, 0, .input, 8⟩
  | 3 => ⟨1, 0, 0, 5, .icmp .bveq, 8⟩
  | 4 => ⟨2, 0, 0, 0, .trunc, 1⟩
  | 5 => ⟨3, 4, 0, 0, .and, 1⟩
  | _ => default

/-- Label 5 of `truncTable` is 1 when both bytes are 5, yet `construct_tasks`
builds no task to reach it. -/
theorem truncTable_dropped : truncTable.value (fun _ => 5) 5 = 1 ∧
    constructTasks (fun _ _ _ => 0) truncTable [] true 5 [] = .ok (false, [], []) :=
  ⟨by decide, constructTasks_and_arith (fun _ _ _ => 0) [] (by decide) (by decide)
    (show (truncTable 5).op = .and from rfl) rfl (by decide)
    (.node (by decide) (by decide) (fun _ same => Op.noConfusion same) (fun logic => absurd logic (by decide))
      (.operand (.inl rfl)) (.const (by decide))) true []⟩

theorem findRoots_compareBool (dag : t.Dag) {F : Nat} {labels : List Nat} {negated : Bool}
    (formula : BoolFormula t F labels negated) (distinct : labels.Nodup) {C : Nat} {pred : Predicate}
    (valid : constOffset ≤ C) (notInit : C ≠ kInitializingLabel) (op : (t C).op = .icmp pred)
    (placed : (t C).l1 = F ∧ (t C).l2 = 0 ∨ (t C).l2 = F ∧ (t C).l1 = 0) (kept : stripZext t F = F)
    {fuel : Nat} (enough : F < fuel) {visited : List Nat} (fresh : C ∉ visited)
    (unvisited : ∀ l ∈ labels, l ∉ visited.insert C) :
    ∃ node visited' immediate, findRoots t (fuel + 1) C AstNode.fresh visited =
      (false, compareBool (decide (pred = .bveq)) immediate node AstNode.fresh, visited') ∧
      Roots t F labels negated (visited.insert C) node visited' := by
  obtain ⟨node, visited1, walk, roots⟩ := formula.walks dag distinct fuel enough _ unvisited
  obtain ⟨fuel, rfl⟩ : ∃ f, fuel = f + 1 := ⟨fuel - 1, by omega⟩
  rw [findRoots, if_neg (by simp only [not_or]; omega), if_neg fresh]
  have again : ∀ ret, findRoots t (fuel + 1) F ret visited1 = (false, ret, visited1) :=
    fun _ => findRoots_stop (.inr (.inr roots.marks))
  rcases placed with ⟨operand, constant⟩ | ⟨operand, constant⟩
  · refine ⟨node, visited1, (t C).op2, ?_, roots⟩
    simp only [op, reduceCtorEq, or_self, if_false, operand, kept, constant, if_pos formula.valid,
      constOffset_le_zero, walk, if_true, visitOperands, again, Bool.or_false]
  · refine ⟨node, visited1, (t C).op1, ?_, roots⟩
    simp only [op, reduceCtorEq, or_self, if_false, operand, kept, constant, if_pos formula.valid,
      constOffset_le_zero, walk, if_true, visitOperands, again, Bool.or_false, Bool.false_eq_true]

/-- A one-bit `And` whose second operand compares a formula with a constant,
the constant in either operand, folds to the constant false whatever its first
operand: `construct_tasks` builds no task for either direction. -/
theorem constructTasks_and_compareBool (xxhash : Nat → Nat → Nat → Nat) (buf : List Nat) (dag : t.Dag)
    {F C : Nat} {labels : List Nat} {negated : Bool} {pred : Predicate}
    (formula : BoolFormula t F labels negated) (distinct : (A :: C :: labels).Nodup)
    (valid : constOffset ≤ A) (labelled : A < kInitializingLabel) (op : (t A).op = .and)
    (bit : (t A).size = 1) (second : (t A).l2 = C) (rightKept : stripZext t C = C)
    (compare : (t C).op = .icmp pred)
    (placed : (t C).l1 = F ∧ (t C).l2 = 0 ∨ (t C).l2 = F ∧ (t C).l1 = 0) (kept : stripZext t F = F)
    (targetDirection : Bool) (cache : ExprCache) :
    constructTasks xxhash t buf targetDirection A cache = .ok (false, [], cache) := by
  have belowA : C < A := second ▸ (dag A (by rw [op]; exact nofun)).2 (by rw [op]; rfl)
  have belowC : F < C := by
    have operands := dag C (by rw [compare]; exact nofun)
    rcases placed with ⟨rfl, -⟩ | ⟨rfl, -⟩
    exacts [operands.1, operands.2 (by rw [compare]; rfl)]
  simp only [List.nodup_cons, List.mem_cons, not_or] at distinct
  obtain ⟨⟨-, notA⟩, notC, distinct⟩ := distinct
  have freshC : C ∉ [A] := by simp only [List.mem_singleton]; omega
  have enough : F < kInitializingLabel - 2 := by simp only [kInitializingLabel] at labelled ⊢; omega
  obtain ⟨node, visited', immediate, walk, roots⟩ := findRoots_compareBool dag formula distinct
    (by have := formula.valid; omega) (by simp only [kInitializingLabel] at labelled ⊢; omega) compare placed
    kept enough freshC fun l member seen => by
      rcases List.mem_insert_iff.mp seen with rfl | seen
      exacts [notC member, notA (List.mem_singleton.mp seen ▸ member)]
  have rightWalk : findRoots t (kInitializingLabel - 1) (stripZext t (t A).l2) AstNode.fresh [A] =
      (false, compareBool (decide (pred = .bveq)) immediate node AstNode.fresh, visited') := by
    rw [second, rightKept]
    exact walk
  refine constructTasks_and_folds xxhash buf valid labelled op bit rightWalk ?_ targetDirection cache
  unfold compareBool
  split_ifs <;> first | exact roots.cleared | rfl

/-- Labels 1 and 2 read input bytes 0 and 1, 3 tests byte 0 below 7, 4 tests
1 for label 3, the constant first as the tracer puts it, 5 tests byte 1 for 5,
and 6 is the one-bit `And` of 5 and 4. -/
def boolCompareTable : LabelTable := fun label =>
  match label with
  | 1 => ⟨0, 0, 0, 0, .input, 8⟩
  | 2 => ⟨0, 0, 1, 0, .input, 8⟩
  | 3 => ⟨1, 0, 0, 7, .icmp .bvult, 8⟩
  | 4 => ⟨0, 3, 1, 0, .icmp .bveq, 1⟩
  | 5 => ⟨2, 0, 0, 5, .icmp .bveq, 8⟩
  | 6 => ⟨5, 4, 0, 0, .and, 1⟩
  | _ => default

theorem boolCompareTable_dag : boolCompareTable.Dag := by
  intro label notInput
  match label with
  | 0 | 1 | 2 => exact absurd rfl notInput
  | 3 | 4 | 5 | 6 => decide
  | _ + 7 => exact absurd rfl notInput

theorem boolCompareTable_formula : BoolFormula boolCompareTable 3 [3] false :=
  .compare (by decide) (by decide) rfl (fun _ => by decide) (fun below => absurd below (by decide))
    (.operand (.inl rfl)) (.const (by decide))

/-- Label 6 of `boolCompareTable` is 1 when both bytes are 5, yet
`construct_tasks` builds no task to reach it. -/
theorem boolCompareTable_dropped : boolCompareTable.value (fun _ => 5) 6 = 1 ∧
    constructTasks (fun _ _ _ => 0) boolCompareTable [] true 6 [] = .ok (false, [], []) :=
  ⟨by decide, constructTasks_and_compareBool (fun _ _ _ => 0) [] boolCompareTable_dag
    boolCompareTable_formula (by decide) (by decide) (by decide) (show (boolCompareTable 6).op = .and from rfl)
    rfl rfl (by decide) rfl (.inr ⟨rfl, rfl⟩) (by decide) true []⟩

end Folding

end Symsan
