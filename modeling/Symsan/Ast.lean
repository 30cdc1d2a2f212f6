import Symsan.Label

/-!
# Expression nodes

The node kinds and the node record the lifter and the simplifier build, the
driver's `OP_MAP` from label operations to node kinds, and the meaning of a
node kind on its children's values.
-/

set_option autoImplicit false

namespace Symsan

/-- Modelled from the spec: the node kinds of ast.h (not part of the source)
that the driver uses. -/
inductive Kind
  | bool | constant | read | concat | extract | zExt | sExt
  | add | sub | uDiv | sDiv | sRem | shl | lShr | aShr | and | or | xor
  | equal | distinct | ult | ule | ugt | uge | slt | sle | sgt | sge
  | lOr | lAnd | lNot | memcmp | memcmpN
  deriving Repr, DecidableEq

/-- The number a kind is stored as, used by the structural hash. -/
def Kind.code (kind : Kind) : Nat := kind.toCtorIdx

/-- `isRelationalKind`: the ten comparison kinds. -/
def Kind.isRelational : Kind → Bool
  | .equal | .distinct | .ult | .ule | .ugt | .uge | .slt | .sle | .sgt | .sge => true
  | _ => false

/-- Modelled from the spec: `negate_cmp`, the dual table Equal/Distinct,
Ult/Uge, Ule/Ugt, Slt/Sge, Sle/Sgt; other kinds are left as they are. -/
def negateCmp : Kind → Kind
  | .equal => .distinct | .distinct => .equal
  | .ult => .uge | .uge => .ult
  | .ule => .ugt | .ugt => .ule
  | .slt => .sge | .sge => .slt
  | .sle => .sgt | .sgt => .sle
  | kind => kind

/-- Modelled from the spec: the AST node of ast.h. A fresh node has every field
zero, so it reads as the constant `Bool` 0; `construct_tasks` relies on this
when `find_roots` leaves the root untouched. -/
structure AstNode where
  kind : Kind
  bits : Nat
  label : Nat
  index : Nat
  hash : Nat
  boolvalue : Nat
  children : List AstNode
  deriving Repr

/-- A node as `add_children()` or `make_shared<AstNode>()` returns it. -/
def AstNode.fresh : AstNode := ⟨.bool, 0, 0, 0, 0, 0, []⟩

/-- `OP_MAP`: the label operations the lifter accepts and the node kind of each. -/
def opMap : Op → Option Kind
  | .extract | .trunc => some .extract
  | .concat => some .concat
  | .zExt => some .zExt
  | .sExt => some .sExt
  | .add => some .add
  | .sub => some .sub
  | .uDiv => some .uDiv
  | .sDiv => some .sDiv
  | .sRem => some .sRem
  | .shl => some .shl
  | .lShr => some .lShr
  | .aShr => some .aShr
  | .and => some .and
  | .or => some .or
  | .xor => some .xor
  | .icmp .bveq => some .equal
  | .icmp .bvneq => some .distinct
  | .icmp .bvugt => some .ugt
  | .icmp .bvuge => some .uge
  | .icmp .bvult => some .ult
  | .icmp .bvule => some .ule
  | .icmp .bvsgt => some .sgt
  | .icmp .bvsge => some .sge
  | .icmp .bvslt => some .slt
  | .icmp .bvsle => some .sle
  | _ => none

/-- Meaning of an operator node of `bits` bits on its children's (value, width)
pairs; an `Extract` starts at bit `index`. -/
def Kind.apply : Kind → (bits index : Nat) → Nat × Nat → Nat × Nat → Nat
  | .extract, bits, index, (x, _), _ => (x >>> index) % 2 ^ bits
  | .concat, bits, _, (x, w), (y, _) => (y * 2 ^ w + x) % 2 ^ bits
  | .zExt, bits, _, (x, _), _ => x % 2 ^ bits
  | .sExt, bits, _, (x, w), _ => ((bv w x).signExtend bits).toNat
  | .add, bits, _, (x, _), (y, _) => (bv bits x + bv bits y).toNat
  | .sub, bits, _, (x, _), (y, _) => (bv bits x - bv bits y).toNat
  | .uDiv, bits, _, (x, _), (y, _) => (bv bits x / bv bits y).toNat
  | .sDiv, bits, _, (x, _), (y, _) => ((bv bits x).sdiv (bv bits y)).toNat
  | .sRem, bits, _, (x, _), (y, _) => ((bv bits x).srem (bv bits y)).toNat
  | .shl, bits, _, (x, _), (y, _) => (bv bits x <<< y).toNat
  | .lShr, bits, _, (x, _), (y, _) => (bv bits x >>> y).toNat
  | .aShr, bits, _, (x, _), (y, _) => ((bv bits x).sshiftRight y).toNat
  | .and, bits, _, (x, _), (y, _) => (bv bits x &&& bv bits y).toNat
  | .or, bits, _, (x, _), (y, _) => (bv bits x ||| bv bits y).toNat
  | .xor, bits, _, (x, _), (y, _) => (bv bits x ^^^ bv bits y).toNat
  | .equal, bits, _, (x, _), (y, _) => if bv bits x = bv bits y then 1 else 0
  | .distinct, bits, _, (x, _), (y, _) => if bv bits x ≠ bv bits y then 1 else 0
  | .ult, bits, _, (x, _), (y, _) => if (bv bits x).ult (bv bits y) then 1 else 0
  | .ule, bits, _, (x, _), (y, _) => if (bv bits x).ule (bv bits y) then 1 else 0
  | .ugt, bits, _, (x, _), (y, _) => if (bv bits y).ult (bv bits x) then 1 else 0
  | .uge, bits, _, (x, _), (y, _) => if (bv bits y).ule (bv bits x) then 1 else 0
  | .slt, bits, _, (x, _), (y, _) => if (bv bits x).slt (bv bits y) then 1 else 0
  | .sle, bits, _, (x, _), (y, _) => if (bv bits x).sle (bv bits y) then 1 else 0
  | .sgt, bits, _, (x, _), (y, _) => if (bv bits y).slt (bv bits x) then 1 else 0
  | .sge, bits, _, (x, _), (y, _) => if (bv bits y).sle (bv bits x) then 1 else 0
  | _, _, _, _, _ => 0

/-- Every operation `OP_MAP` accepts means what its node kind means, with the
node index the lifter gives it: the extraction start for `Extract`, and 0 for
`Trunc`, which `OP_MAP` also sends to `Extract`. -/
theorem opMap_apply {op : Op} {kind : Kind} (mapped : opMap op = some kind)
    (size op2 : Nat) (x y : Nat × Nat) :
    kind.apply size (if op = .extract then op2 else 0) x y = op.apply size op2 x y := by
  obtain ⟨x, w⟩ := x
  obtain ⟨y, v⟩ := y
  cases op with
  | icmp pred =>
    cases pred <;> cases mapped <;>
      first | rfl | exact if_congr beq_iff_eq.symm rfl rfl | exact if_congr bne_iff_ne.symm rfl rfl
  | _ => cases mapped <;> rfl

end Symsan
