import Symsan.Lift

/-!
# Lifting is faithful

`parse_constraint` turns an ICmp label into an AST over argument slots. Read
through `local_map`, the AST means what the label means: every Read node is the
input bytes it names, every Constant node the immediate in its slot, every
operator node the label operation it comes from (`opMap_apply`), and a
repeated-label leaf the value of the expansion that precedes it. Within one
build no label is expanded twice (`parseConstraint_denotes`).

On a DAG, lifting fails exactly on a slice that holds an invalid label or an
operation `OP_MAP` does not map (`parseConstraint_succeeds`,
`parseConstraint_liftable`).

The structural hash does not identify the AST, repeated leaves expanded: a
repeated leaf hashes as 0 whatever label it stands for
(`parseConstraint_hash_collision`).
-/

set_option autoImplicit false

namespace Symsan

/-! ## Association lists -/

section Lookup

variable {α : Type}

theorem lookup_mem {l : List (Nat × α)} {key : Nat} {value : α} (found : l.lookup key = some value) :
    (key, value) ∈ l := by
  induction l with
  | nil => cases found
  | cons entry rest ih =>
    obtain ⟨k, v⟩ := entry
    by_cases same : key = k
    · subst same
      simp only [List.lookup, beq_self_eq_true, Option.some.injEq] at found
      simp [found]
    · simp only [List.lookup, beq_false_of_ne same] at found
      exact List.mem_cons_of_mem _ (ih found)

theorem lookup_append_of_some {l : List (Nat × α)} (l' : List (Nat × α)) {key : Nat} {value : α}
    (found : l.lookup key = some value) : (l ++ l').lookup key = some value := by
  induction l with
  | nil => cases found
  | cons entry rest ih =>
    obtain ⟨k, v⟩ := entry
    by_cases same : key = k
    · subst same; simpa [List.lookup] using found
    · simp only [List.lookup, beq_false_of_ne same, List.cons_append] at found ⊢
      exact ih found

theorem lookup_append_of_none {l : List (Nat × α)} {key : Nat} (value : α)
    (absent : l.lookup key = none) : (l ++ [(key, value)]).lookup key = some value := by
  induction l with
  | nil => simp [List.lookup]
  | cons entry rest ih =>
    obtain ⟨k, v⟩ := entry
    by_cases same : key = k
    · subst same; simp [List.lookup] at absent
    · simp only [List.lookup, beq_false_of_ne same, List.cons_append] at absent ⊢
      exact ih absent

theorem lookup_append_of_ne (l : List (Nat × α)) {key k : Nat} (value : α) (other : key ≠ k) :
    (l ++ [(k, value)]).lookup key = l.lookup key := by
  induction l with
  | nil => simp [List.lookup, beq_false_of_ne other]
  | cons entry rest ih =>
    obtain ⟨k', v⟩ := entry
    by_cases same : key = k'
    · subst same; simp [List.lookup]
    · simp only [List.lookup, beq_false_of_ne same, List.cons_append]
      exact ih

end Lookup

/-! ## Argument slots

The solver assigns values to argument slots; an assignment of the input bytes
fills the slot `local_map` gives to each offset with that offset's byte.
-/

namespace Constraint

/-- The argument slots of a constraint filled from an assignment of the input
bytes: the slot of an offset holds that offset's byte, any other slot its
`input_args` value. -/
def argsOf (c : Constraint) (input : InputBytes) (slot : Nat) : Nat :=
  match c.localMap.find? (fun entry => entry.2 == slot) with
  | some (offset, _) => (input offset).val
  | none => (c.inputArgs.getD slot (false, 0)).2

/-- The `length` bytes from `offset` read through `local_map`, little-endian. -/
def readArgs (c : Constraint) (input : InputBytes) (offset : Nat) : Nat → Nat
  | 0 => 0
  | length + 1 =>
    c.argsOf input ((c.localMap.lookup offset).getD 0) + 256 * c.readArgs input (offset + 1) length

/-- `local_map` sends distinct offsets to distinct slots, all of them allocated. -/
structure SlotsWf (c : Constraint) : Prop where
  injective : (c.localMap.map Prod.snd).Nodup
  allocated : ∀ entry ∈ c.localMap, entry.2 < c.inputArgs.length

/-- `c'` grows `c`: every mapped offset keeps its slot and every slot its content. -/
structure Extends (c c' : Constraint) : Prop where
  localMap : ∀ {offset slot}, c.localMap.lookup offset = some slot →
    c'.localMap.lookup offset = some slot
  inputArgs : c.inputArgs <+: c'.inputArgs

theorem Extends.refl (c : Constraint) : c.Extends c := ⟨id, List.prefix_refl _⟩

theorem Extends.trans {c c' c'' : Constraint} (first : c.Extends c') (second : c'.Extends c'') :
    c.Extends c'' :=
  ⟨fun found => second.localMap (first.localMap found), first.inputArgs.trans second.inputArgs⟩

theorem argsOf_slot {c : Constraint} (wf : c.SlotsWf) (input : InputBytes) {offset slot : Nat}
    (found : c.localMap.lookup offset = some slot) : c.argsOf input slot = (input offset).val := by
  have member := lookup_mem found
  unfold argsOf
  split
  · rename_i entryOffset entrySlot located
    have same := List.inj_on_of_nodup_map wf.injective (List.mem_of_find?_eq_some located) member
      (by simpa using List.find?_some located)
    cases same
    rfl
  · rename_i missing
    exact absurd (List.find?_eq_none.mp missing _ member) (by simp)

theorem readArgs_eq {c : Constraint} (wf : c.SlotsWf) (input : InputBytes) :
    ∀ {offset length : Nat}, (∀ i < length, ∃ slot, c.localMap.lookup (offset + i) = some slot) →
      c.readArgs input offset length = readLE input offset length := by
  intro offset length
  induction length generalizing offset with
  | zero => intro _; rfl
  | succ length ih =>
    intro mapped
    obtain ⟨slot, found⟩ := mapped 0 (Nat.zero_lt_succ _)
    rw [Nat.add_zero] at found
    have rest : ∀ i < length, ∃ slot, c.localMap.lookup (offset + 1 + i) = some slot :=
      fun i below => by simpa [Nat.add_assoc, Nat.add_comm 1 i] using mapped (i + 1) (by omega)
    simp only [readArgs, readLE, found, Option.getD_some, argsOf_slot wf input found, ih rest]

end Constraint

/-! ## Mapping bytes to slots -/

section Mapping

variable (xxhash : Nat → Nat → Nat → Nat) (buf : List Nat)

theorem mapByte_spec (offset : Nat) {c : Constraint} (wf : c.SlotsWf) :
    (mapByte buf offset c).2.SlotsWf ∧ c.Extends (mapByte buf offset c).2 ∧
      (mapByte buf offset c).2.localMap.lookup offset = some (mapByte buf offset c).1 := by
  unfold mapByte
  split
  · rename_i slot found
    exact ⟨wf, Constraint.Extends.refl c, found⟩
  · rename_i absent
    have appended : assign c.localMap offset c.inputArgs.length =
        c.localMap ++ [(offset, c.inputArgs.length)] := by simp [assign, absent]
    refine ⟨⟨?_, ?_⟩, ⟨fun found => ?_, List.prefix_append _ _⟩, ?_⟩
    · simp only [appended, List.map_append, List.map_cons, List.map_nil]
      refine wf.injective.append (List.nodup_singleton _) ?_
      simp only [List.disjoint_singleton, List.mem_map, not_exists, not_and]
      intro entry member same
      exact absurd (wf.allocated entry member) (by omega)
    · simp only [appended, List.mem_append, List.mem_singleton, List.length_append,
        List.length_singleton]
      rintro entry (member | rfl)
      · exact Nat.lt_succ_of_lt (wf.allocated entry member)
      · exact Nat.lt_succ_self _
    · simpa only [appended] using lookup_append_of_some _ found
    · simpa only [appended] using lookup_append_of_none _ absent

theorem mapArgStep_spec (offset length : Nat) (acc : Nat × Constraint) (i : Nat)
    (wf : acc.2.SlotsWf) :
    (mapArgStep xxhash buf offset length acc i).2.SlotsWf ∧
      acc.2.Extends (mapArgStep xxhash buf offset length acc i).2 ∧
      ∃ slot, (mapArgStep xxhash buf offset length acc i).2.localMap.lookup (offset + i) = some slot := by
  obtain ⟨mappedWf, grows, found⟩ := mapByte_spec buf (offset + i) wf
  unfold mapArgStep
  split <;> exact ⟨⟨mappedWf.injective, mappedWf.allocated⟩, ⟨grows.localMap, grows.inputArgs⟩, _, found⟩

theorem mapArg_spec (offset length : Nat) {c : Constraint} (wf : c.SlotsWf) :
    (mapArg xxhash buf offset length c).2.SlotsWf ∧ c.Extends (mapArg xxhash buf offset length c).2 ∧
      ∀ i < length, ∃ slot, (mapArg xxhash buf offset length c).2.localMap.lookup (offset + i) = some slot := by
  suffices loop : ∀ (indices : List Nat) (acc : Nat × Constraint), acc.2.SlotsWf →
      let done := indices.foldl (mapArgStep xxhash buf offset length) acc
      done.2.SlotsWf ∧ acc.2.Extends done.2 ∧
        ∀ i ∈ indices, ∃ slot, done.2.localMap.lookup (offset + i) = some slot by
    obtain ⟨doneWf, grows, mapped⟩ := loop (List.range length) (0, c) wf
    exact ⟨doneWf, grows, fun i below => mapped i (List.mem_range.mpr below)⟩
  intro indices
  induction indices with
  | nil => intro acc wf; exact ⟨wf, Constraint.Extends.refl _, by simp⟩
  | cons i rest ih =>
    intro acc wf
    obtain ⟨stepWf, stepGrows, slot, found⟩ := mapArgStep_spec xxhash buf offset length acc i wf
    obtain ⟨doneWf, grows, mapped⟩ := ih _ stepWf
    refine ⟨doneWf, stepGrows.trans grows, ?_⟩
    rintro j (_ | ⟨_, member⟩)
    · exact ⟨slot, grows.localMap found⟩
    · exact mapped j member

end Mapping

/-! ## Meaning of a lifted AST -/

/-- Values of the labels expanded so far, with their widths, latest first. -/
abbrev Env := List (Nat × (Nat × Nat))

/-- The labels a lifted AST expands, in the order it expands them. -/
def AstNode.expanded : AstNode → List Nat
  | ⟨kind, _, label, _, _, _, []⟩ => if kind = .bool ∨ kind = .constant then [] else [label]
  | ⟨_, _, label, _, _, _, [x]⟩ => label :: x.expanded
  | ⟨_, _, label, _, _, _, [x, y]⟩ => label :: (x.expanded ++ y.expanded)
  | _ => []

theorem AstNode.expanded_unary (kind : Kind) (bits label index hash value : Nat) (x : AstNode) :
    AstNode.expanded ⟨kind, bits, label, index, hash, value, [x]⟩ = label :: x.expanded := rfl

theorem AstNode.expanded_binary (kind : Kind) (bits label index hash value : Nat) (x y : AstNode) :
    AstNode.expanded ⟨kind, bits, label, index, hash, value, [x, y]⟩ =
      label :: (x.expanded ++ y.expanded) := rfl

/-- The (value, width) of a lifted AST, its argument slots filled from `input`,
threading the values of the labels expanded so far: a Read node is its bytes
through `local_map`, a Constant node the content of its slot at its width, an
operator node its kind applied to its children, and a repeated-label leaf
(kind `Bool`) the value of that label's expansion. -/
def Constraint.evalAst (c : Constraint) (input : InputBytes) : AstNode → Env → Option ((Nat × Nat) × Env)
  | ⟨kind, bits, label, index, _, _, []⟩, env =>
    if kind = .bool then (env.lookup label).map (·, env)
    else if kind = .constant then some (((c.inputArgs.getD index (false, 0)).2 % 2 ^ bits, bits), env)
    else if kind = .read then
      let result := (c.readArgs input index (bits / 8), bits)
      some (result, (label, result) :: env)
    else none
  | ⟨kind, bits, label, index, _, _, [x]⟩, env => do
    let (operand, env) ← c.evalAst input x env
    let result := (kind.apply bits index operand (0, 0), bits)
    pure (result, (label, result) :: env)
  | ⟨kind, bits, label, index, _, _, [x, y]⟩, env => do
    let (left, env) ← c.evalAst input x env
    let (right, env) ← c.evalAst input y env
    let result := (kind.apply bits index left right, bits)
    pure (result, (label, result) :: env)
  | _, _ => none

section Evaluation

variable (c : Constraint) (input : InputBytes) (bits label index hash value : Nat) (env : Env)

theorem Constraint.evalAst_read :
    c.evalAst input ⟨.read, bits, label, index, hash, value, []⟩ env =
      some ((c.readArgs input index (bits / 8), bits),
        (label, (c.readArgs input index (bits / 8), bits)) :: env) := rfl

theorem Constraint.evalAst_constant :
    c.evalAst input ⟨.constant, bits, label, index, hash, value, []⟩ env =
      some (((c.inputArgs.getD index (false, 0)).2 % 2 ^ bits, bits), env) := rfl

theorem Constraint.evalAst_unary (kind : Kind) (x : AstNode) :
    c.evalAst input ⟨kind, bits, label, index, hash, value, [x]⟩ env =
      (c.evalAst input x env).bind fun operand =>
        some ((kind.apply bits index operand.1 (0, 0), bits),
          (label, (kind.apply bits index operand.1 (0, 0), bits)) :: operand.2) := rfl

theorem Constraint.evalAst_binary (kind : Kind) (x y : AstNode) :
    c.evalAst input ⟨kind, bits, label, index, hash, value, [x, y]⟩ env =
      (c.evalAst input x env).bind fun left => (c.evalAst input y left.2).bind fun right =>
        some ((kind.apply bits index left.1 right.1, bits),
          (label, (kind.apply bits index left.1 right.1, bits)) :: right.2) := rfl

end Evaluation

/-- Every label of `labels` is bound to its value and width. -/
def EnvSound (t : LabelTable) (input : InputBytes) (env : Env) (labels : List Nat) : Prop :=
  ∀ l ∈ labels, env.lookup l = some (t.value input l, t.width l)

theorem EnvSound.cons {t : LabelTable} {input : InputBytes} {env : Env} {labels : List Nat}
    (sound : EnvSound t input env labels) (label : Nat) :
    EnvSound t input ((label, (t.value input label, t.width label)) :: env) (labels.insert label) := by
  intro l member
  by_cases same : l = label
  · subst same; simp [List.lookup]
  · simp only [List.lookup, beq_false_of_ne same]
    exact sound l ((List.mem_insert_iff.mp member).resolve_left same)

/-! ## Lifting one label -/

/-- What lifting `label` from the visited labels `visited` and the constraint
`c` establishes of the node, visited labels and constraint it returns. -/
structure Lifts (t : LabelTable) (label : Nat) (visited : List Nat) (c : Constraint)
    (node : AstNode) (visited' : List Nat) (c' : Constraint) : Prop where
  wf : c'.SlotsWf
  grows : c.Extends c'
  fresh : ∀ l ∈ node.expanded, l ∉ visited ∧ l ≤ label
  nodup : node.expanded.Nodup
  visits : ∀ l, l ∈ visited'.insert label ↔ l ∈ visited ∨ l ∈ node.expanded
  denotes : ∀ cf : Constraint, c'.Extends cf → cf.SlotsWf → ∀ input env,
    EnvSound t input env visited → ∃ env', cf.evalAst input node env =
      some ((t.value input label, t.width label), env') ∧
        EnvSound t input env' (visited'.insert label)

/-- What lifting the operand in `slot` of `info` (a label, or the constant
`immediate`; `other` is the other slot) establishes of its result. -/
structure OperandLifts (t : LabelTable) (info : LabelInfo) (slot immediate other : Nat)
    (visited : List Nat) (c : Constraint) (child : AstNode) (visited' : List Nat)
    (c' : Constraint) : Prop where
  wf : c'.SlotsWf
  grows : c.Extends c'
  fresh : ∀ l ∈ child.expanded, l ∉ visited ∧ l ≤ slot
  nodup : child.expanded.Nodup
  visits : ∀ l, l ∈ visited' ↔ l ∈ visited ∨ l ∈ child.expanded
  denotes : ∀ cf : Constraint, c'.Extends cf → cf.SlotsWf → ∀ input env,
    EnvSound t input env visited → ∃ env', cf.evalAst input child env =
      some (t.operandOf (t.value input) info slot immediate other, env') ∧
        EnvSound t input env' visited'

theorem getD_of_extension {l l' : List (Bool × Nat)} (grows : l <+: l') {n : Nat} (below : n < l.length)
    (d : Bool × Nat) : l'.getD n d = l.getD n d := by
  obtain ⟨rest, rfl⟩ := grows
  exact List.getD_append _ _ _ _ below

theorem width_of_op {t : LabelTable} {label : Nat} (notInput : (t label).op ≠ .input)
    (notLoad : (t label).op ≠ .load) : t.width label = (t label).size := by
  unfold LabelTable.width
  split <;> first | rfl | contradiction

theorem value_of_op {t : LabelTable} (dag : t.Dag) (input : InputBytes) {label : Nat}
    (notInput : (t label).op ≠ .input) (notLoad : (t label).op ≠ .load) :
    t.value input label = (t label).op.apply (t label).size (t label).op2
      (t.operandOf (t.value input) (t label) (t label).l1 (t label).op1 (t label).l2)
      (t.operandOf (t.value input) (t label) (t label).l2 (t label).op2 (t label).l1) := by
  rw [t.value_eq dag input label]
  simp only [LabelTable.unfold, notInput, notLoad, if_false]

section Lifting

variable (xxhash : Nat → Nat → Nat → Nat) {t : LabelTable} (buf : List Nat)

theorem lifts_visited {label : Nat} {visited : List Nat} {c : Constraint} (wf : c.SlotsWf)
    (member : label ∈ visited) (bits : Nat) :
    Lifts t label visited c { AstNode.fresh with label, bits } visited c := by
  have leaf : ({ AstNode.fresh with label, bits } : AstNode).expanded = [] := rfl
  refine ⟨wf, .refl c, by simp [leaf], by simp [leaf], ?_, ?_⟩
  · simp [leaf, List.insert_of_mem member]
  · intro cf _ _ input env sound
    exact ⟨env, congrArg (Option.map (·, env)) (sound label member),
      by simpa [List.insert_of_mem member] using sound⟩

theorem lifts_read {label : Nat} {visited : List Nat} {c : Constraint} (wf : c.SlotsWf)
    (notVisited : label ∉ visited) {offset length bits : Nat} (sized : bits / 8 = length)
    (width : t.width label = bits) (reads : ∀ input, t.value input label = readLE input offset length) :
    Lifts t label visited c ⟨.read, bits, label, offset, (mapArg xxhash buf offset length c).1, 0, []⟩
      visited (mapArg xxhash buf offset length c).2 := by
  obtain ⟨mappedWf, grows, mapped⟩ := mapArg_spec xxhash buf offset length wf
  have expanded : AstNode.expanded ⟨.read, bits, label, offset, (mapArg xxhash buf offset length c).1,
      0, []⟩ = [label] := rfl
  refine ⟨mappedWf, grows, ?_, ?_, ?_, ?_⟩
  · simpa [expanded] using notVisited
  · simp [expanded]
  · simp [expanded, List.mem_insert_iff, or_comm]
  · intro cf extended cfWf input env sound
    have readBytes : cf.readArgs input offset length = readLE input offset length :=
      Constraint.readArgs_eq cfWf input fun i below =>
        (mapped i below).imp fun _ found => extended.localMap found
    refine ⟨_, ?_, sound.cons label⟩
    rw [Constraint.evalAst_read, sized, readBytes, reads, width]

theorem operandLifts {lift : Nat → List Nat → Constraint → Lifted} {info : LabelInfo}
    {slot immediate other : Nat} {visited : List Nat} {c : Constraint} {child : AstNode}
    {visited' : List Nat} {c' : Constraint}
    (liftsSlot : ∀ visited c node visited' c', lift slot visited c = some (node, visited', c') →
      c.SlotsWf → Lifts t slot visited c node visited' c')
    (lifted : liftOperand xxhash lift (t.constWidth info other) slot immediate visited c =
      some (child, visited', c'))
    (wf : c.SlotsWf) : OperandLifts t info slot immediate other visited c child visited' c' := by
  unfold liftOperand at lifted
  split at lifted
  · rename_i isLabel
    split at lifted
    · cases lifted
    · rename_i node v c1 found
      cases lifted
      have lifts := liftsSlot _ _ _ _ _ found wf
      refine ⟨lifts.wf, lifts.grows, lifts.fresh, lifts.nodup, lifts.visits, ?_⟩
      intro cf extended cfWf input env sound
      obtain ⟨env', evaluated, sound'⟩ := lifts.denotes cf extended cfWf input env sound
      exact ⟨env', by simp [evaluated, LabelTable.operandOf, isLabel], sound'⟩
  · rename_i isConstant
    cases lifted
    have expanded : AstNode.expanded ⟨.constant, t.constWidth info other, 0, c.inputArgs.length,
        xxhash (t.constWidth info other) Kind.constant.code c.inputArgs.length, 0, []⟩ = [] := rfl
    refine ⟨⟨wf.injective, fun entry member => ?_⟩, ⟨id, List.prefix_append _ _⟩, by simp [expanded],
      by simp [expanded], by simp [expanded], ?_⟩
    · simpa using Nat.lt_succ_of_lt (wf.allocated entry member)
    · intro cf extended _ input env _
      have stored : cf.inputArgs.getD c.inputArgs.length (false, 0) = (false, immediate) := by
        rw [getD_of_extension extended.inputArgs (by simp)]
        simp [List.getD_append_right]
      refine ⟨env, ?_, ‹_›⟩
      rw [Constraint.evalAst_constant, stored]
      simp only [LabelTable.operandOf, isConstant, if_false]

theorem lifts_unary (dag : t.Dag) {label : Nat} {visited visited1 : List Nat} {c c1 : Constraint}
    {kind : Kind} {hash : Nat} {left : AstNode} (notVisited : label ∉ visited)
    (notInput : (t label).op ≠ .input) (notLoad : (t label).op ≠ .load)
    (mapped : opMap (t label).op = some kind) (unary : (t label).op.unary = true)
    (operand : OperandLifts t (t label) (t label).l1 (t label).op1 (t label).l2 visited c left
      visited1 c1) :
    Lifts t label visited c ⟨kind, (t label).size, label,
      if (t label).op = .extract then (t label).op2 else 0, hash, 0, [left]⟩ visited1 c1 := by
  have below : (t label).l1 < label := (dag label notInput).1
  have outside : label ∉ left.expanded := fun member => by
    have := (operand.fresh label member).2; omega
  refine ⟨operand.wf, operand.grows, ?_, List.nodup_cons.mpr ⟨outside, operand.nodup⟩, ?_, ?_⟩
  · simp only [AstNode.expanded_unary, List.mem_cons]
    rintro l (rfl | member)
    · exact ⟨notVisited, le_rfl⟩
    · exact ⟨(operand.fresh l member).1, by have := (operand.fresh l member).2; omega⟩
  · intro l
    simp only [List.mem_insert_iff, operand.visits, AstNode.expanded_unary, List.mem_cons]
    exact or_left_comm
  · intro cf extended cfWf input env sound
    obtain ⟨env1, evaluated, sound1⟩ := operand.denotes cf extended cfWf input env sound
    refine ⟨_, ?_, sound1.cons label⟩
    simp only [Constraint.evalAst_unary, evaluated, Option.some_bind, value_of_op dag input notInput notLoad, opMap_apply mapped, width_of_op notInput notLoad,
      Op.apply_unary unary _ _ _ (t.operandOf (t.value input) (t label) (t label).l2 (t label).op2
        (t label).l1) (0, 0)]

theorem lifts_binary (dag : t.Dag) {label : Nat} {visited visited1 visited2 : List Nat}
    {c c1 c2 : Constraint} {kind : Kind} {hash : Nat} {left right : AstNode}
    (notVisited : label ∉ visited) (notInput : (t label).op ≠ .input)
    (notLoad : (t label).op ≠ .load) (mapped : opMap (t label).op = some kind)
    (binary : (t label).op.unary = false)
    (leftLifts : OperandLifts t (t label) (t label).l1 (t label).op1 (t label).l2 visited c left
      visited1 c1)
    (rightLifts : OperandLifts t (t label) (t label).l2 (t label).op2 (t label).l1 visited1 c1 right
      visited2 c2) :
    Lifts t label visited c ⟨kind, (t label).size, label, 0, hash, 0, [left, right]⟩ visited2 c2 := by
  have belowLeft : (t label).l1 < label := (dag label notInput).1
  have belowRight : (t label).l2 < label :=
    (dag label notInput).2 (by simp [Op.binary, notInput, notLoad, binary])
  have notExtract : (t label).op ≠ .extract := fun extract => by
    simp [extract, Op.unary] at binary
  have seen : ∀ l ∈ left.expanded, l ∈ visited1 := fun l member =>
    (leftLifts.visits l).mpr (.inr member)
  refine ⟨rightLifts.wf, leftLifts.grows.trans rightLifts.grows, ?_, ?_, ?_, ?_⟩
  · simp only [AstNode.expanded_binary, List.mem_cons, List.mem_append]
    rintro l (rfl | member | member)
    · exact ⟨notVisited, le_rfl⟩
    · exact ⟨(leftLifts.fresh l member).1, by have := (leftLifts.fresh l member).2; omega⟩
    · refine ⟨fun old => (rightLifts.fresh l member).1 ((leftLifts.visits l).mpr (.inl old)), ?_⟩
      have := (rightLifts.fresh l member).2; omega
  · refine List.nodup_cons.mpr ⟨fun member => ?_, leftLifts.nodup.append rightLifts.nodup ?_⟩
    · rcases List.mem_append.mp member with member | member
      · have := (leftLifts.fresh label member).2; omega
      · have := (rightLifts.fresh label member).2; omega
    · exact fun l onLeft onRight => (rightLifts.fresh l onRight).1 (seen l onLeft)
  · intro l
    simp only [List.mem_insert_iff, rightLifts.visits, leftLifts.visits, AstNode.expanded_binary,
      List.mem_cons, List.mem_append, or_assoc]
    exact or_left_comm
  · intro cf extended cfWf input env sound
    obtain ⟨env1, evalLeft, sound1⟩ :=
      leftLifts.denotes cf (rightLifts.grows.trans extended) cfWf input env sound
    obtain ⟨env2, evalRight, sound2⟩ := rightLifts.denotes cf extended cfWf input env1 sound1
    have apply := opMap_apply mapped (t label).size (t label).op2
      (t.operandOf (t.value input) (t label) (t label).l1 (t label).op1 (t label).l2)
      (t.operandOf (t.value input) (t label) (t label).l2 (t label).op2 (t label).l1)
    rw [if_neg notExtract] at apply
    refine ⟨_, ?_, sound2.cons label⟩
    simp only [Constraint.evalAst_binary, evalLeft, evalRight, Option.some_bind, value_of_op dag input notInput notLoad, apply, width_of_op notInput notLoad]

/-- Every result of `do_uta_rel` satisfies `Lifts`. -/
theorem doUtaRel_lifts (dag : t.Dag) : ∀ fuel label visited c node visited' c',
    doUtaRel xxhash t buf fuel label visited c = some (node, visited', c') → c.SlotsWf →
      Lifts t label visited c node visited' c' := by
  intro fuel
  induction fuel with
  | zero => intro _ _ _ _ _ _ lifted; cases lifted
  | succ fuel ih =>
    intro label visited c node visited' c' lifted wf
    rw [doUtaRel] at lifted
    by_cases reserved : label < constOffset ∨ label = kInitializingLabel
    · rw [if_pos reserved] at lifted; cases lifted
    rw [if_neg reserved] at lifted
    by_cases member : label ∈ visited
    · rw [if_pos member] at lifted
      cases lifted
      exact lifts_visited wf member _
    rw [if_neg member] at lifted
    by_cases isInput : (t label).op = .input
    · rw [if_pos isInput] at lifted
      cases lifted
      refine lifts_read xxhash buf wf member rfl (by simp [LabelTable.width, isInput]) fun input => ?_
      rw [t.value_eq dag input label]
      simp [LabelTable.unfold, isInput, readLE]
    rw [if_neg isInput] at lifted
    by_cases isLoad : (t label).op = .load
    · rw [if_pos isLoad] at lifted
      cases lifted
      refine lifts_read xxhash buf wf member (by omega) (by simp [LabelTable.width, isLoad]) fun input => ?_
      rw [t.value_eq dag input label]
      simp [LabelTable.unfold, isLoad]
    rw [if_neg isLoad] at lifted
    split at lifted
    · cases lifted
    rename_i kind mapped
    split at lifted
    · cases lifted
    rename_i left visited1 c1 liftedLeft
    have leftLifts := operandLifts xxhash (ih (t label).l1) liftedLeft wf
    split at lifted
    · cases lifted
      exact lifts_unary dag member isInput isLoad mapped ‹_› leftLifts
    rename_i binary
    split at lifted
    · cases lifted
    rename_i right visited2 c2 liftedRight
    cases lifted
    exact lifts_binary dag member isInput isLoad mapped (by simpa using binary) leftLifts
      (operandLifts xxhash (ih (t label).l2) liftedRight leftLifts.wf)

/-- `parse_constraint` is faithful: within the build no label is expanded
twice, and under every assignment of the input bytes the AST, its slots filled
through `local_map`, has the value and width of the label. Evaluation fails on
a repeated-label leaf whose label was not expanded before it, so every such
leaf follows the expansion it stands for. -/
theorem parseConstraint_denotes (dag : t.Dag) {label : Nat} {c : Constraint}
    (lifted : parseConstraint xxhash t buf label = some c) :
    c.ast.expanded.Nodup ∧
      ∀ input, (c.evalAst input c.ast []).map Prod.fst = some (t.value input label, t.width label) := by
  unfold parseConstraint at lifted
  split at lifted
  · cases lifted
  rename_i ast visited c' found
  cases lifted
  have lifts := doUtaRel_lifts xxhash buf dag _ _ _ _ _ _ _ found
    ⟨List.nodup_nil, by simp [Constraint.empty]⟩
  refine ⟨lifts.nodup, fun input => ?_⟩
  obtain ⟨env', evaluated, _⟩ := lifts.denotes { c' with ast } ⟨id, List.prefix_refl _⟩
    ⟨lifts.wf.injective, lifts.wf.allocated⟩ input [] (by simp [EnvSound])
  simp [evaluated]

end Lifting

/-! ## A repeated sub-term

Labels 1 and 2 read input bytes 0 and 1, 3 is their sum, 4 is `3 + 1` and 6
is `3 + 2`; 5 and 7 compare 4 and 6 with 7. Lifting 5 expands 3 and then meets
1 again, lifting 7 meets 2 again.
-/

/-- The label table of `7 == (in[0] + in[1]) + in[0]` (label 5) and
`7 == (in[0] + in[1]) + in[1]` (label 7). -/
def collisionTable : LabelTable := fun label =>
  match label with
  | 1 => ⟨0, 0, 0, 0, .input, 8⟩
  | 2 => ⟨0, 0, 1, 0, .input, 8⟩
  | 3 => ⟨1, 2, 0, 0, .add, 8⟩
  | 4 => ⟨3, 1, 0, 0, .add, 8⟩
  | 5 => ⟨0, 4, 7, 0, .icmp .bveq, 8⟩
  | 6 => ⟨3, 2, 0, 0, .add, 8⟩
  | 7 => ⟨0, 6, 7, 0, .icmp .bveq, 8⟩
  | _ => default

theorem collisionTable_dag : collisionTable.Dag := by
  intro label notInput
  match label with
  | 0 | 1 | 2 => exact absurd rfl notInput
  | 3 | 4 | 5 | 6 | 7 => decide
  | _ + 8 => exact absurd rfl notInput

theorem collisionTable_five_denotes :
    ∃ c, parseConstraint (fun _ _ _ => 0) collisionTable [0, 0] 5 = some c ∧
      c.ast.expanded.Nodup ∧ ∀ input, (c.evalAst input c.ast []).map Prod.fst =
        some (collisionTable.value input 5, collisionTable.width 5) :=
  ⟨_, rfl, parseConstraint_denotes (fun _ _ _ => 0) [0, 0] collisionTable_dag rfl⟩

/-! ## Lifting succeeds

`do_uta_rel` fails on a label below `CONST_OFFSET` or equal to the reserved
label, and on an operation `OP_MAP` does not map; on a DAG nothing else stops
it, and `label + 1` nested calls suffice. -/

/-- Labels `do_uta_rel` lifts: valid labels that read or load input bytes, or
whose operation `OP_MAP` maps and whose operand labels are liftable. -/
inductive Liftable (t : LabelTable) : Nat → Prop
  | read {l : Nat} : constOffset ≤ l → l ≠ kInitializingLabel → (t l).op = .input ∨ (t l).op = .load →
      Liftable t l
  | node {l : Nat} {kind : Kind} : constOffset ≤ l → l ≠ kInitializingLabel → opMap (t l).op = some kind →
      (constOffset ≤ (t l).l1 → Liftable t (t l).l1) →
      ((t l).op.unary = false → constOffset ≤ (t l).l2 → Liftable t (t l).l2) → Liftable t l

section Succeeds

variable (xxhash : Nat → Nat → Nat → Nat) {t : LabelTable} (buf : List Nat)

theorem liftOperand_isSome {lift : Nat → List Nat → Constraint → Lifted} (size : Nat) {slot : Nat}
    (immediate : Nat) (lifts : constOffset ≤ slot → ∀ visited c, (lift slot visited c).isSome)
    (visited : List Nat) (c : Constraint) :
    (liftOperand xxhash lift size slot immediate visited c).isSome := by
  unfold liftOperand
  split
  · obtain ⟨⟨child, visited', c'⟩, lifted⟩ := Option.isSome_iff_exists.mp (lifts ‹_› visited c)
    rw [lifted]
    rfl
  · rfl

theorem doUtaRel_isSome_of_read {fuel l : Nat} {visited : List Nat} {c : Constraint}
    (valid : constOffset ≤ l) (notInit : l ≠ kInitializingLabel)
    (read : l ∈ visited ∨ (t l).op = .input ∨ (t l).op = .load) :
    (doUtaRel xxhash t buf (fuel + 1) l visited c).isSome := by
  have notBelow : ¬(l < constOffset ∨ l = kInitializingLabel) := by omega
  rw [doUtaRel, if_neg notBelow]
  by_cases member : l ∈ visited
  · rw [if_pos member]
    rfl
  rw [if_neg member]
  by_cases isInput : (t l).op = .input
  · rw [if_pos isInput]
    rfl
  rw [if_neg isInput, if_pos (by tauto)]
  rfl

/-- `do_uta_rel` lifts a liftable label with any fuel above it, whatever it has
visited. -/
theorem Liftable.lifts (dag : t.Dag) {l : Nat} (liftable : Liftable t l) :
    ∀ fuel, l < fuel → ∀ visited c, (doUtaRel xxhash t buf fuel l visited c).isSome := by
  induction liftable with
  | read valid notInit read =>
    rintro (_ | fuel) enough visited c
    · omega
    exact doUtaRel_isSome_of_read xxhash buf valid notInit (.inr read)
  | @node l kind valid notInit mapped _ _ leftIH rightIH =>
    rintro (_ | fuel) enough visited c
    · omega
    by_cases read : l ∈ visited ∨ (t l).op = .input ∨ (t l).op = .load
    · exact doUtaRel_isSome_of_read xxhash buf valid notInit read
    simp only [not_or] at read
    obtain ⟨member, isInput, isLoad⟩ := read
    have notBelow : ¬(l < constOffset ∨ l = kInitializingLabel) := by omega
    obtain ⟨⟨left, visited1, c1⟩, liftedLeft⟩ := Option.isSome_iff_exists.mp
      (liftOperand_isSome xxhash (t.constWidth (t l) (t l).l2) (t l).op1
        (fun slot => leftIH slot fuel (by have := (dag l isInput).1; omega)) visited c)
    rw [doUtaRel, if_neg notBelow, if_neg member, if_neg isInput, if_neg isLoad]
    simp only [mapped, liftedLeft]
    split
    · rfl
    rename_i unary
    obtain ⟨⟨right, visited2, c2⟩, liftedRight⟩ := Option.isSome_iff_exists.mp
      (liftOperand_isSome xxhash (t.constWidth (t l) (t l).l1) (t l).op2
        (fun slot => rightIH (by simpa using unary) slot fuel
          (by have := (dag l isInput).2 (by simp [Op.binary, isInput, isLoad, unary]); omega))
        visited1 c1)
    simp only [liftedRight]
    rfl

/-- `parse_constraint` returns a constraint for every liftable label of a DAG:
`label + 1` nested calls of `do_uta_rel` never run out. -/
theorem parseConstraint_succeeds (dag : t.Dag) {label : Nat} (liftable : Liftable t label) :
    ∃ c, parseConstraint xxhash t buf label = some c := by
  obtain ⟨⟨ast, visited, c⟩, lifted⟩ := Option.isSome_iff_exists.mp
    (liftable.lifts xxhash buf dag (label + 1) (Nat.lt_succ_self label) [] Constraint.empty)
  exact ⟨_, by rw [parseConstraint, lifted]⟩

theorem liftOperand_congr {lift lift' : Nat → List Nat → Constraint → Lifted} (size : Nat) {slot : Nat}
    (immediate : Nat) (same : constOffset ≤ slot → ∀ visited c, lift' slot visited c = lift slot visited c)
    (visited : List Nat) (c : Constraint) :
    liftOperand xxhash lift' size slot immediate visited c = liftOperand xxhash lift size slot immediate visited c := by
  unfold liftOperand
  split
  · rw [same ‹_› visited c]
  · rfl

/-- On a DAG any two fuels above the label lift it alike, so the `label + 1` of
`parse_constraint` stands for the unbounded recursion of `do_uta_rel`. -/
theorem doUtaRel_fuel (dag : t.Dag) {fuel : Nat} : ∀ {fuel' label : Nat} {visited : List Nat} {c : Constraint},
    label < fuel → label < fuel' →
      doUtaRel xxhash t buf fuel' label visited c = doUtaRel xxhash t buf fuel label visited c := by
  induction fuel with
  | zero => intro _ _ _ _ below; omega
  | succ fuel ih =>
    rintro (_ | fuel') label visited c below below'
    · omega
    by_cases read : (t label).op = .input ∨ (t label).op = .load
    · rcases read with isRead | isRead <;> simp [doUtaRel, isRead]
    simp only [not_or] at read
    have bounds := dag label read.1
    have operand : ∀ {slot}, slot < label → ∀ size immediate visited c,
        liftOperand xxhash (doUtaRel xxhash t buf fuel') size slot immediate visited c =
          liftOperand xxhash (doUtaRel xxhash t buf fuel) size slot immediate visited c :=
      fun below size immediate => liftOperand_congr xxhash size immediate fun _ _ _ => ih (by omega) (by omega)
    by_cases unary : (t label).op.unary
    · simp only [doUtaRel, operand bounds.1, unary, ↓reduceIte]
    simp only [doUtaRel, operand bounds.1, operand (bounds.2 (by simp [Op.binary, read, unary]))]

theorem parseConstraint_eq_doUtaRel (dag : t.Dag) {label fuel : Nat} (enough : label < fuel) :
    parseConstraint xxhash t buf label =
      (doUtaRel xxhash t buf fuel label [] Constraint.empty).map fun r => { r.2.2 with ast := r.1 } := by
  rw [parseConstraint, doUtaRel_fuel xxhash buf dag enough (Nat.lt_succ_self label)]
  rcases doUtaRel xxhash t buf fuel label [] Constraint.empty with _ | ⟨ast, visited, c⟩ <;> rfl

theorem liftOperand_liftable {lift : Nat → List Nat → Constraint → Lifted} {size slot immediate : Nat}
    (lifts : ∀ visited c r, (∀ l ∈ visited, Liftable t l) → lift slot visited c = some r →
      Liftable t slot ∧ ∀ l ∈ r.2.1, Liftable t l)
    {visited : List Nat} {c : Constraint} {r : AstNode × List Nat × Constraint}
    (prior : ∀ l ∈ visited, Liftable t l)
    (lifted : liftOperand xxhash lift size slot immediate visited c = some r) :
    (constOffset ≤ slot → Liftable t slot) ∧ ∀ l ∈ r.2.1, Liftable t l := by
  unfold liftOperand at lifted
  split at lifted
  · cases operand : lift slot visited c with
    | none => simp [operand] at lifted
    | some result =>
      obtain ⟨child, visited', c'⟩ := result
      simp only [operand, Option.some.injEq] at lifted
      subst lifted
      obtain ⟨liftable, after⟩ := lifts visited c _ prior operand
      refine ⟨fun _ => liftable, fun l member => ?_⟩
      rcases List.mem_insert_iff.mp member with rfl | old
      exacts [liftable, after l old]
  · cases lifted
    exact ⟨fun slotted => absurd slotted ‹_›, prior⟩

/-- `do_uta_rel` returns only for a liftable label, and leaves visited only
liftable labels, when it starts from such: a label that is invalid or whose
operation `OP_MAP` does not map stops it wherever it stands in the slice. -/
theorem doUtaRel_liftable {fuel : Nat} : ∀ {label : Nat} {visited : List Nat} {c : Constraint}
    {r : AstNode × List Nat × Constraint}, (∀ l ∈ visited, Liftable t l) →
      doUtaRel xxhash t buf fuel label visited c = some r → Liftable t label ∧ ∀ l ∈ r.2.1, Liftable t l := by
  induction fuel with
  | zero => intro _ _ _ _ _ lifted; cases lifted
  | succ fuel ih =>
    intro label visited c r prior lifted
    by_cases invalid : label < constOffset ∨ label = kInitializingLabel
    · rw [doUtaRel, if_pos invalid] at lifted
      cases lifted
    have valid : constOffset ≤ label := by omega
    have notInit : label ≠ kInitializingLabel := by omega
    rw [doUtaRel, if_neg invalid] at lifted
    by_cases member : label ∈ visited
    · rw [if_pos member] at lifted
      cases lifted
      exact ⟨prior label member, prior⟩
    rw [if_neg member] at lifted
    by_cases isInput : (t label).op = .input
    · rw [if_pos isInput] at lifted
      cases lifted
      exact ⟨.read valid notInit (.inl isInput), prior⟩
    rw [if_neg isInput] at lifted
    by_cases isLoad : (t label).op = .load
    · rw [if_pos isLoad] at lifted
      cases lifted
      exact ⟨.read valid notInit (.inr isLoad), prior⟩
    rw [if_neg isLoad] at lifted
    cases mapped : opMap (t label).op with
    | none => simp [mapped] at lifted
    | some kind =>
      cases left : liftOperand xxhash (doUtaRel xxhash t buf fuel) (t.constWidth (t label) (t label).l2)
          (t label).l1 (t label).op1 visited c with
      | none => simp [mapped, left] at lifted
      | some leftResult =>
        obtain ⟨leftNode, visited1, c1⟩ := leftResult
        obtain ⟨leftLiftable, leftVisited⟩ := liftOperand_liftable xxhash (fun _ _ _ => ih) prior left
        by_cases unary : (t label).op.unary = true
        · simp only [mapped, left, unary, if_true, Option.some.injEq] at lifted
          subst lifted
          exact ⟨.node valid notInit mapped leftLiftable fun binary => absurd unary (by simp [binary]),
            leftVisited⟩
        cases right : liftOperand xxhash (doUtaRel xxhash t buf fuel) (t.constWidth (t label) (t label).l1)
            (t label).l2 (t label).op2 visited1 c1 with
        | none => simp [mapped, left, unary, right] at lifted
        | some rightResult =>
          obtain ⟨rightLiftable, rightVisited⟩ := liftOperand_liftable xxhash (fun _ _ _ => ih) leftVisited right
          simp only [mapped, left, unary, right, Bool.false_eq_true, if_false, Option.some.injEq] at lifted
          subst lifted
          exact ⟨.node valid notInit mapped leftLiftable fun _ => rightLiftable, rightVisited⟩

/-- `parse_constraint` returns a constraint only for a liftable label: one
label of the slice that is invalid, or whose operation `OP_MAP` does not map,
makes it return null. -/
theorem parseConstraint_liftable {label : Nat} {c : Constraint}
    (parsed : parseConstraint xxhash t buf label = some c) : Liftable t label := by
  cases lifted : doUtaRel xxhash t buf (label + 1) label [] Constraint.empty with
  | none => simp [parseConstraint, lifted] at parsed
  | some r => exact (doUtaRel_liftable xxhash buf (List.forall_mem_nil _) lifted).1

end Succeeds

theorem collisionTable_five_liftable : Liftable collisionTable 5 :=
  .node (by decide) (by decide) rfl (fun below => absurd below (by decide))
    (fun _ _ => .node (by decide) (by decide) rfl
      (fun _ => .node (by decide) (by decide) rfl (fun _ => .read (by decide) (by decide) (.inl rfl))
        (fun _ _ => .read (by decide) (by decide) (.inl rfl)))
      (fun _ _ => .read (by decide) (by decide) (.inl rfl)))

theorem collisionTable_five_lifted : ∃ c, parseConstraint (fun _ _ _ => 0) collisionTable [0, 0] 5 = some c :=
  parseConstraint_succeeds (fun _ _ _ => 0) [0, 0] collisionTable_dag collisionTable_five_liftable

/-- The constraint lifted from label 5 of `collisionTable` comes from a
liftable label. -/
theorem collisionTable_five_parsedLiftable :
    ∃ c, parseConstraint (fun _ _ _ => 0) collisionTable [0, 0] 5 = some c ∧ Liftable collisionTable 5 := by
  obtain ⟨c, parsed⟩ : ∃ c, parseConstraint (fun _ _ _ => 0) collisionTable [0, 0] 5 = some c := ⟨_, rfl⟩
  exact ⟨c, parsed, parseConstraint_liftable (fun _ _ _ => 0) [0, 0] parsed⟩

/-! ## Structural hashes -/

/-- One node of a lifted AST with its label and input offset erased: kind,
width, Extract start, the argument slots it reads (each byte's slot for a
Read, its own slot for a Constant) and number of children. -/
structure ShapeToken where
  kind : Kind
  bits : Nat
  start : Nat
  slots : List Nat
  arity : Nat
  deriving DecidableEq

/-- The tokens of a lifted AST in preorder, every repeated-label leaf replaced
by the tokens of the expansion it stands for. -/
def Constraint.shape (c : Constraint) :
    AstNode → List (Nat × List ShapeToken) → Option (List ShapeToken × List (Nat × List ShapeToken))
  | ⟨kind, bits, label, index, _, _, []⟩, seen =>
    if kind = .bool then (seen.lookup label).map (·, seen)
    else if kind = .constant then some ([⟨.constant, bits, 0, [index], 0⟩], seen)
    else if kind = .read then
      let slots := (List.range (bits / 8)).map fun i => (c.localMap.lookup (index + i)).getD 0
      let tokens := [⟨.read, bits, 0, slots, 0⟩]
      some (tokens, (label, tokens) :: seen)
    else none
  | ⟨kind, bits, label, index, _, _, [x]⟩, seen => do
    let (operand, seen) ← c.shape x seen
    let tokens := ⟨kind, bits, if kind = .extract then index else 0, [], 1⟩ :: operand
    pure (tokens, (label, tokens) :: seen)
  | ⟨kind, bits, label, _, _, _, [x, y]⟩, seen => do
    let (left, seen) ← c.shape x seen
    let (right, seen) ← c.shape y seen
    let tokens := ⟨kind, bits, 0, [], 2⟩ :: (left ++ right)
    pure (tokens, (label, tokens) :: seen)
  | _, _ => none

/-- The shape of a constraint's AST, the comparison at its root ignored. -/
def Constraint.erasedShape (c : Constraint) : Option (List ShapeToken) :=
  (c.shape c.ast []).map fun result =>
    match result.1 with
    | root :: rest => { root with kind := .bool } :: rest
    | [] => []

/-- The two constraints of `collisionTable` have the same root hash for every
hash function, injective ones included, but different shapes: the repeated
leaves for labels 1 and 2 both hash as 0. -/
theorem parseConstraint_hash_collision (xxhash : Nat → Nat → Nat → Nat) (buf : List Nat) :
    (parseConstraint xxhash collisionTable buf 5).map (·.ast.hash) =
        (parseConstraint xxhash collisionTable buf 7).map (·.ast.hash) ∧
      (parseConstraint xxhash collisionTable buf 5).bind Constraint.erasedShape ≠
        (parseConstraint xxhash collisionTable buf 7).bind Constraint.erasedShape := by
  refine ⟨rfl, ?_⟩
  have five : (parseConstraint xxhash collisionTable buf 5).bind Constraint.erasedShape =
      (parseConstraint (fun _ _ _ => 0) collisionTable [] 5).bind Constraint.erasedShape := rfl
  have seven : (parseConstraint xxhash collisionTable buf 7).bind Constraint.erasedShape =
      (parseConstraint (fun _ _ _ => 0) collisionTable [] 7).bind Constraint.erasedShape := rfl
  rw [five, seven]
  decide

end Symsan
