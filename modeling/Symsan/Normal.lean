import Symsan.Ast

/-!
# Negation and disjunctive normal forms

`to_nnf` and `to_dnf` on boolean skeletons. Both follow the node's children
through the indices the C++ reads (`children(0)`, `children(1)`); a node with
fewer children than its asserted count is treated as a leaf.
-/

set_option autoImplicit false

namespace Symsan

mutual

/-- `to_nnf`: rewrite a skeleton in place, looking for a true formula when
`expected` is true and for a false one otherwise. -/
def toNnf : Bool → AstNode → AstNode
  | false, ⟨.lNot, _, _, _, _, _, child :: _⟩ => toNnf true child
  | false, ⟨.lAnd, bits, label, index, hash, value, left :: right :: rest⟩ =>
    ⟨.lOr, bits, label, index, hash, value, toNnf false left :: toNnf false right :: rest⟩
  | false, ⟨.lOr, bits, label, index, hash, value, left :: right :: rest⟩ =>
    ⟨.lAnd, bits, label, index, hash, value, toNnf false left :: toNnf false right :: rest⟩
  | false, ⟨kind, bits, label, index, hash, value, children⟩ =>
    ⟨negateCmp kind, bits, label, index, hash, value, children⟩
  | true, ⟨kind, bits, label, index, hash, value, children⟩ =>
    ⟨kind, bits, label, index, hash, value, toNnfChildren (kind != .lNot) children⟩

/-- The loop of `to_nnf` over every child with one polarity. -/
def toNnfChildren (expected : Bool) : List AstNode → List AstNode
  | [] => []
  | child :: rest => toNnf expected child :: toNnfChildren expected rest

end

/-- Clauses of a disjunctive normal form, each a conjunction of leaves. -/
abbrev Formula := List (List AstNode)

/-- `to_dnf`: append the clauses of `node` to `formula`. -/
def toDnf : AstNode → Formula → Formula
  | ⟨.lAnd, _, _, _, _, _, left :: right :: _⟩, formula =>
    let leftClauses := toDnf left []
    let rightClauses := toDnf right []
    let formula := formula ++ leftClauses.flatMap fun sub1 => rightClauses.map (sub1 ++ ·)
    if leftClauses.isEmpty then rightClauses else formula
  | ⟨.lOr, _, _, _, _, _, left :: right :: _⟩, formula => toDnf right (toDnf left formula)
  | node, formula => formula ++ [[node]]

/-- Truth of a skeleton, `LAnd`, `LOr` and `LNot` read as the connectives and
every other node read by `leaf`. -/
def AstNode.truth (leaf : AstNode → Bool) : AstNode → Bool
  | ⟨.lAnd, _, _, _, _, _, left :: right :: _⟩ => left.truth leaf && right.truth leaf
  | ⟨.lOr, _, _, _, _, _, left :: right :: _⟩ => left.truth leaf || right.truth leaf
  | ⟨.lNot, _, _, _, _, _, child :: _⟩ => !child.truth leaf
  | node => leaf node

end Symsan
