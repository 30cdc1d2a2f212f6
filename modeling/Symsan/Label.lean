import Mathlib

/-!
# Dataflow labels

The shared label table the tracer writes and the driver only reads: one record
per label with its operation, width and operands. An operand slot below
`constOffset` holds a constant, whose value is the record's immediate `op1` or
`op2`. The meaning of a label under an assignment of the input bytes is given
here once; the lifter and the simplifier are checked against it.
-/

set_option autoImplicit false

namespace Symsan

/-- Modelled from the spec: the ten integer comparison predicates an ICmp label
carries above its low byte (`ICmp | (predicate << 8)`). -/
inductive Predicate
  | bveq | bvneq | bvugt | bvuge | bvult | bvule | bvsgt | bvsge | bvslt | bvsle
  deriving Repr, DecidableEq

/-- Modelled from the spec: the operation codes of dfsan.h, which is not part of
the source. `input` is the terminal code 0 (one input byte); `other` stands for
every code the driver does not name. -/
inductive Op
  | input | load | extract | trunc | concat | zExt | sExt
  | add | sub | mul | uDiv | sDiv | uRem | sRem | shl | lShr | aShr | and | or | xor
  | icmp (pred : Predicate)
  | other (code : Nat)
  deriving Repr, DecidableEq

/-- The operations `do_uta_rel` lifts with a single child. -/
def Op.unary : Op → Bool
  | .zExt | .sExt | .extract | .trunc => true
  | _ => false

/-- Operations whose second slot is an operand; a load's `l2` is a byte count. -/
def Op.binary (op : Op) : Bool :=
  op ≠ .input && op ≠ .load && !op.unary

/-- Modelled from the spec: one `dfsan_label_info` record. -/
structure LabelInfo where
  l1 : Nat
  l2 : Nat
  op1 : Nat
  op2 : Nat
  op : Op
  size : Nat
  deriving Repr, DecidableEq

instance : Inhabited LabelInfo := ⟨⟨0, 0, 0, 0, .input, 0⟩⟩

/-- The label table, indexed by label. -/
def LabelTable := Nat → LabelInfo

/-- Smallest label that names a value; smaller operand slots hold constants. -/
def constOffset : Nat := 1

/-- The operand slot value marking a constant operand. -/
def constLabel : Nat := 0

/-- The reserved label dfsan never assigns, `-1` as a 32-bit label. -/
def kInitializingLabel : Nat := 4294967295

/-- An assignment of the input bytes. -/
abbrev InputBytes := Nat → Fin 256

/-- The tracer assigns labels in increasing order, so every operand label is
smaller than the label using it. Label 0 uses no operand. -/
def LabelTable.Dag (t : LabelTable) : Prop :=
  ∀ l, (t l).op ≠ .input → (t l).l1 < l ∧ ((t l).op.binary → (t l).l2 < l)

/-- A value stored into a `uint32_t`. -/
def u32 (n : Nat) : Nat := n % 2 ^ 32

/-- `a - b` in 32-bit unsigned arithmetic, as `uint32_t size -= ...` computes it. -/
def u32Sub (a b : Nat) : Nat := (a + (2 ^ 32 - b % 2 ^ 32)) % 2 ^ 32

/-- `x` as a `w`-bit vector. -/
def bv (w x : Nat) : BitVec w := BitVec.ofNat w x

/-- Truth of a comparison of two `w`-bit operands. -/
def Predicate.holds : Predicate → (w x y : Nat) → Bool
  | .bveq, w, x, y => bv w x == bv w y
  | .bvneq, w, x, y => bv w x != bv w y
  | .bvugt, w, x, y => (bv w y).ult (bv w x)
  | .bvuge, w, x, y => (bv w y).ule (bv w x)
  | .bvult, w, x, y => (bv w x).ult (bv w y)
  | .bvule, w, x, y => (bv w x).ule (bv w y)
  | .bvsgt, w, x, y => (bv w y).slt (bv w x)
  | .bvsge, w, x, y => (bv w y).sle (bv w x)
  | .bvslt, w, x, y => (bv w x).slt (bv w y)
  | .bvsle, w, x, y => (bv w x).sle (bv w y)

/-- Meaning of a label's operation on its operands, each a (value, width) pair;
the result is `size` bits wide, an extraction starts at bit `op2`, and a
concatenation puts its second operand above the first. -/
def Op.apply : Op → (size op2 : Nat) → Nat × Nat → Nat × Nat → Nat
  | .zExt, size, _, (x, _), _ => x % 2 ^ size
  | .sExt, size, _, (x, w), _ => ((bv w x).signExtend size).toNat
  | .extract, size, op2, (x, _), _ => (x >>> op2) % 2 ^ size
  | .trunc, size, _, (x, _), _ => x % 2 ^ size
  | .concat, size, _, (x, w), (y, _) => (y * 2 ^ w + x) % 2 ^ size
  | .add, size, _, (x, _), (y, _) => (bv size x + bv size y).toNat
  | .sub, size, _, (x, _), (y, _) => (bv size x - bv size y).toNat
  | .mul, size, _, (x, _), (y, _) => (bv size x * bv size y).toNat
  | .uDiv, size, _, (x, _), (y, _) => (bv size x / bv size y).toNat
  | .sDiv, size, _, (x, _), (y, _) => ((bv size x).sdiv (bv size y)).toNat
  | .uRem, size, _, (x, _), (y, _) => (bv size x % bv size y).toNat
  | .sRem, size, _, (x, _), (y, _) => ((bv size x).srem (bv size y)).toNat
  | .shl, size, _, (x, _), (y, _) => (bv size x <<< y).toNat
  | .lShr, size, _, (x, _), (y, _) => (bv size x >>> y).toNat
  | .aShr, size, _, (x, _), (y, _) => ((bv size x).sshiftRight y).toNat
  | .and, size, _, (x, _), (y, _) => (bv size x &&& bv size y).toNat
  | .or, size, _, (x, _), (y, _) => (bv size x ||| bv size y).toNat
  | .xor, size, _, (x, _), (y, _) => (bv size x ^^^ bv size y).toNat
  | .icmp pred, size, _, (x, _), (y, _) => if pred.holds size x y then 1 else 0
  | .input, _, _, _, _ | .load, _, _, _, _ | .other _, _, _, _, _ => 0

/-- A unary operation reads only its first operand. -/
theorem Op.apply_unary {op : Op} (unary : op.unary = true) (size op2 : Nat)
    (x y y' : Nat × Nat) : op.apply size op2 x y = op.apply size op2 x y' := by
  obtain ⟨x, w⟩ := x
  cases op <;> first | rfl | cases unary

/-- The bytes `offset, ..., offset + length - 1` of the input, little-endian. -/
def readLE (input : InputBytes) (offset : Nat) : Nat → Nat
  | 0 => 0
  | length + 1 => (input offset).val + 256 * readLE input (offset + 1) length

namespace LabelTable

variable (t : LabelTable)

/-- Width of the value a label denotes: one byte for an input label, `l2` bytes
for a load, and `size` otherwise (an ICmp label's size is its operands' width). -/
def width (l : Nat) : Nat :=
  match (t l).op with
  | .input => 8
  | .load => (t l).l2 * 8
  | _ => (t l).size

/-- Width of a constant operand of `info` whose other operand is `other`: the
label's size, or for a concatenation that size minus the other operand's. -/
def constWidth (info : LabelInfo) (other : Nat) : Nat :=
  if info.op = .concat then u32Sub info.size (t other).size else info.size

/-- An operand of `info` read through `eval`: the value and width of a label,
or the immediate at the constant width. -/
def operandOf (eval : Nat → Nat) (info : LabelInfo) (slot immediate other : Nat) : Nat × Nat :=
  if constOffset ≤ slot then (eval slot, t.width slot)
  else (immediate % 2 ^ t.constWidth info other, t.constWidth info other)

/-- One unfolding of a label's meaning, its operand labels read through `eval`. -/
def unfold (input : InputBytes) (eval : Nat → Nat) (l : Nat) : Nat :=
  let info := t l
  if info.op = .input then (input info.op1).val
  else if info.op = .load then readLE input (t info.l1).op1 info.l2
  else info.op.apply info.size info.op2 (t.operandOf eval info info.l1 info.op1 info.l2)
    (t.operandOf eval info info.l2 info.op2 info.l1)

/-- Value of a label, unfolding at most `fuel` operations. -/
def valueAux (input : InputBytes) : Nat → Nat → Nat
  | 0, _ => 0
  | fuel + 1, l => t.unfold input (valueAux input fuel) l

/-- Value of a label under an assignment of the input bytes. On a DAG `l + 1`
unfoldings reach every operand (`valueAux_fuel`). -/
def value (input : InputBytes) (l : Nat) : Nat := t.valueAux input (l + 1) l

/-- On a DAG, one unfolding reads only operands below the label. -/
theorem unfold_congr (dag : t.Dag) (input : InputBytes) {eval eval' : Nat → Nat} {l : Nat}
    (agree : ∀ slot, slot < l → eval slot = eval' slot) :
    t.unfold input eval l = t.unfold input eval' l := by
  have operandAgree : ∀ slot immediate other, slot < l →
      t.operandOf eval (t l) slot immediate other = t.operandOf eval' (t l) slot immediate other := by
    intro slot immediate other smaller
    simp only [operandOf, agree slot smaller]
  dsimp only [unfold]
  split
  · rfl
  split
  · rfl
  rename_i notInput notLoad
  have ops := dag l notInput
  rw [operandAgree _ _ _ ops.1]
  cases unary : (t l).op.unary
  · rw [operandAgree _ _ _ (ops.2 (by simp [Op.binary, notInput, notLoad, unary]))]
  · exact Op.apply_unary unary _ _ _ _ _

/-- On a DAG every fuel above the label gives the same value. -/
theorem valueAux_fuel (dag : t.Dag) (input : InputBytes) :
    ∀ {f g l : Nat}, l < f → l < g → t.valueAux input f l = t.valueAux input g l := by
  intro f
  induction f with
  | zero => intro g l below; omega
  | succ f ih =>
    intro g l below below'
    obtain ⟨g, rfl⟩ : ∃ g', g = g' + 1 := ⟨g - 1, by omega⟩
    exact t.unfold_congr dag input fun slot smaller => ih (g := g) (by omega) (by omega)

/-- The meaning of a label is one unfolding over its operands' meanings. -/
theorem value_eq (dag : t.Dag) (input : InputBytes) (l : Nat) :
    t.value input l = t.unfold input (t.value input) l :=
  t.unfold_congr dag input fun slot smaller =>
    t.valueAux_fuel dag input (f := l) (g := slot + 1) smaller (Nat.lt_succ_self slot)

end LabelTable

end Symsan
