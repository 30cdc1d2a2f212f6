import Symsan.LiftProperties

/-!
# The argument map of a lifted constraint

What `map_arg` and the constant operands of `do_uta_rel` keep: one slot per
mapped offset and per constant, a mapped offset's slot symbolic and not yet
filled, every other slot a constant whose AST node sits where its operand is,
and `inputs` and `shapes` holding exactly the offsets of `local_map`
(`Constraint.ArgMapWf`). `finalize` relies on this for its `.at` lookups and
its writes into `input_args`.

`local_map` is keyed by the `size_t` offset, `inputs` and `shapes` by its
`uint32_t` conversion, so the key sets agree while offsets stay below `2 ^ 32`,
as they do on the buffers AFL hands the driver (`afl_custom_fuzz` asserts
`buf_size < MAX_FILE`).
-/

set_option autoImplicit false

namespace Symsan

/-! ## Association lists -/

section Keys

variable {α : Type}

theorem getElem?_snoc_eq_some {l : List α} {x y : α} {i : Nat} :
    (l ++ [x])[i]? = some y ↔ i < l.length ∧ l[i]? = some y ∨ i = l.length ∧ x = y := by
  by_cases early : i < l.length
  · rw [List.getElem?_append_left early]
    exact ⟨fun found => .inl ⟨early, found⟩, fun found => found.elim And.right fun last => absurd last.1 (by omega)⟩
  · rw [List.getElem?_append_right (Nat.le_of_not_lt early)]
    match past : i - l.length with
    | 0 =>
      rw [List.getElem?_cons_zero, Option.some.injEq]
      exact ⟨fun same => .inr ⟨by omega, same⟩, fun found => found.elim (absurd ·.1 early) And.right⟩
    | _ + 1 =>
      rw [List.getElem?_cons_succ, List.getElem?_nil]
      exact ⟨nofun, fun found => found.elim (absurd ·.1 early) fun last => absurd last.1 (by omega)⟩

theorem lookup_eq_none_iff {l : List (Nat × α)} {key : Nat} :
    l.lookup key = none ↔ key ∉ l.map Prod.fst := by
  induction l with
  | nil => exact ⟨fun _ => List.not_mem_nil _, fun _ => rfl⟩
  | cons entry rest ih =>
    obtain ⟨k, v⟩ := entry
    by_cases same : key = k
    · subst same
      simp only [List.lookup, beq_self_eq_true, List.map_cons, List.mem_cons, true_or, not_true_eq_false,
        reduceCtorEq]
    · simp only [List.lookup, beq_false_of_ne same, ih, List.map_cons, List.mem_cons, same, false_or]

theorem lookup_isSome_iff {l : List (Nat × α)} {key : Nat} :
    (l.lookup key).isSome ↔ key ∈ l.map Prod.fst := by
  rw [← not_iff_not, Option.not_isSome_iff_eq_none, lookup_eq_none_iff]

theorem mem_keys_assign {map : List (Nat × α)} {key : Nat} {value : α} {k : Nat} :
    k ∈ (assign map key value).map Prod.fst ↔ k ∈ map.map Prod.fst ∨ k = key := by
  unfold assign
  split
  · rename_i found
    have present : key ∈ map.map Prod.fst := lookup_isSome_iff.mp (by rw [found]; rfl)
    have keys : (map.map fun entry => if entry.1 = key then (key, value) else entry).map Prod.fst =
        map.map Prod.fst := by
      rw [List.map_map]
      refine List.map_congr_left fun entry _ => ?_
      by_cases hit : entry.1 = key
      · rw [Function.comp_apply, if_pos hit, hit]
      · rw [Function.comp_apply, if_neg hit]
    rw [keys]
    exact ⟨.inl, fun member => member.elim id (· ▸ present)⟩
  · simp only [List.map_append, List.map_cons, List.map_nil, List.mem_append, List.mem_singleton]

end Keys

/-! ## The invariant -/

namespace Constraint

/-- The offsets `local_map` maps. -/
def offsets (c : Constraint) : List Nat := c.localMap.map Prod.fst

/-- The argument map of a lifted constraint: one slot per mapped offset and per
constant; the slots of `local_map` (a `std::map`, so with distinct offsets)
are distinct and are exactly the symbolic slots, each `(true, 0)` until
`finalize` fills it; `inputs` and `shapes` have the offsets of `local_map` as
keys. Both are keyed by `uint32_t`, so equal key sets put every offset below
`2 ^ 32`. -/
structure ArgMapWf (c : Constraint) : Prop where
  count : c.inputArgs.length = c.localMap.length + c.constNum
  keys : c.offsets.Nodup
  injective : (c.localMap.map Prod.snd).Nodup
  mapped : ∀ entry ∈ c.localMap, c.inputArgs[entry.2]? = some (true, 0)
  symbolic : ∀ slot value, c.inputArgs[slot]? = some (true, value) →
    ∃ offset, (offset, slot) ∈ c.localMap
  inputsKeys : ∀ offset, offset ∈ c.inputs.map Prod.fst ↔ offset ∈ c.offsets
  shapesKeys : ∀ offset, offset ∈ c.shapes.map Prod.fst ↔ offset ∈ c.offsets
  fits : ∀ offset ∈ c.offsets, offset < 2 ^ 32

/-- A constraint whose argument map was built from `buf`: the invariant, and
the initial byte of every offset read from `buf`. -/
structure BuiltFrom (buf : List Nat) (c : Constraint) extends c.ArgMapWf : Prop where
  bytes : ∀ offset ∈ c.offsets, c.inputs.lookup offset = some (buf.getD offset 0)

theorem empty_builtFrom (buf : List Nat) : Constraint.empty.BuiltFrom buf :=
  ⟨⟨rfl, List.nodup_nil, List.nodup_nil, nofun, fun _ _ found => by simp [Constraint.empty] at found,
    fun _ => Iff.rfl, fun _ => Iff.rfl, nofun⟩, nofun⟩

theorem offsets_mono {c c' : Constraint} (grows : c.Extends c') {offset : Nat}
    (member : offset ∈ c.offsets) : offset ∈ c'.offsets := by
  obtain ⟨slot, found⟩ := Option.isSome_iff_exists.mp (lookup_isSome_iff.mpr member)
  exact lookup_isSome_iff.mp (by rw [grows.localMap found]; rfl)

theorem ArgMapWf.allocated {c : Constraint} (wf : c.ArgMapWf) {entry : Nat × Nat}
    (member : entry ∈ c.localMap) : entry.2 < c.inputArgs.length :=
  (List.getElem?_eq_some_iff.mp (wf.mapped entry member)).1

theorem BuiltFrom.pushConstant {buf : List Nat} {c : Constraint} (built : c.BuiltFrom buf)
    (immediate : Nat) : Constraint.BuiltFrom buf
      { c with inputArgs := c.inputArgs ++ [(false, immediate)], constNum := c.constNum + 1 } := by
  refine ⟨⟨?_, built.keys, built.injective, fun entry member => ?_, fun slot value holds => ?_,
    built.inputsKeys, built.shapesKeys, built.fits⟩, built.bytes⟩
  · simp only [List.length_append, List.length_singleton, built.count]; omega
  · rw [List.getElem?_append_left (built.allocated member)]
    exact built.mapped entry member
  · rcases getElem?_snoc_eq_some.mp holds with ⟨_, old⟩ | ⟨_, constant⟩
    · exact built.symbolic slot value old
    · cases constant

end Constraint

/-! ## Mapping bytes -/

section Mapping

variable (xxhash : Nat → Nat → Nat → Nat) (buf : List Nat)

theorem mapByte_of_found {c : Constraint} {offset slot : Nat}
    (found : c.localMap.lookup offset = some slot) : mapByte buf offset c = (slot, c) := by
  simp only [mapByte, found]

theorem mapByte_of_absent {c : Constraint} {offset : Nat} (absent : c.localMap.lookup offset = none) :
    mapByte buf offset c = (c.inputArgs.length, { c with
      inputs := insertNew c.inputs (u32 offset) (buf.getD offset 0)
      localMap := c.localMap ++ [(offset, c.inputArgs.length)]
      inputArgs := c.inputArgs ++ [(true, 0)] }) := by
  simp only [mapByte, absent, assign]

theorem Constraint.BuiltFrom.mapShaped {c : Constraint} (built : c.BuiltFrom buf) {offset : Nat}
    (fits : offset < 2 ^ 32) (shape : Nat) :
    Constraint.BuiltFrom buf { (mapByte buf offset c).2 with
      shapes := assign (mapByte buf offset c).2.shapes (u32 offset) shape } := by
  have key : u32 offset = offset := Nat.mod_eq_of_lt fits
  cases found : c.localMap.lookup offset with
  | some slot =>
    have present : offset ∈ c.offsets := lookup_isSome_iff.mp (by rw [found]; rfl)
    rw [mapByte_of_found buf found, key]
    refine ⟨⟨built.count, built.keys, built.injective, built.mapped, built.symbolic,
      built.inputsKeys, fun k => ?_, built.fits⟩, built.bytes⟩
    rw [mem_keys_assign, built.shapesKeys]
    exact ⟨fun member => member.elim id (· ▸ present), .inl⟩
  | none =>
    have absent : offset ∉ c.offsets := lookup_eq_none_iff.mp found
    have notInput : c.inputs.lookup offset = none :=
      lookup_eq_none_iff.mpr fun member => absent ((built.inputsKeys offset).mp member)
    have inserted : insertNew c.inputs offset (buf.getD offset 0) =
        c.inputs ++ [(offset, buf.getD offset 0)] := by simp only [insertNew, notInput]
    rw [mapByte_of_absent buf found, key, inserted]
    have offsetsEq : (c.localMap ++ [(offset, c.inputArgs.length)]).map Prod.fst =
        c.offsets ++ [offset] := by simp [Constraint.offsets]
    refine ⟨⟨?_, ?_, ?_, ?_, ?_, fun k => ?_, fun k => ?_, ?_⟩, ?_⟩ <;> dsimp only [Constraint.offsets]
    · simp only [List.length_append, List.length_singleton, built.count]; omega
    · rw [offsetsEq]
      exact built.keys.append (List.nodup_singleton _) (List.disjoint_singleton.mpr absent)
    · simp only [List.map_append, List.map_cons, List.map_nil]
      refine built.injective.append (List.nodup_singleton _) (List.disjoint_singleton.mpr ?_)
      intro member
      obtain ⟨entry, inMap, same⟩ := List.mem_map.mp member
      exact absurd (built.allocated inMap) (by omega)
    · intro entry member
      rcases List.mem_append.mp member with old | new
      · rw [List.getElem?_append_left (built.allocated old)]
        exact built.mapped entry old
      · rw [List.mem_singleton.mp new]
        simp
    · intro slot value holds
      rcases getElem?_snoc_eq_some.mp holds with ⟨_, old⟩ | ⟨last, _⟩
      · obtain ⟨o, member⟩ := built.symbolic slot value old
        exact ⟨o, List.mem_append_left _ member⟩
      · exact ⟨offset, by simp [last]⟩
    · rw [offsetsEq, List.map_append, List.mem_append, List.mem_append, built.inputsKeys k]
      simp
    · rw [offsetsEq, mem_keys_assign, List.mem_append, built.shapesKeys k]
      simp
    · intro k member
      rw [offsetsEq] at member
      rcases List.mem_append.mp member with old | new
      · exact built.fits k old
      · exact (List.mem_singleton.mp new) ▸ fits
    · intro k member
      rw [offsetsEq] at member
      rcases List.mem_append.mp member with old | new
      · exact lookup_append_of_some _ (built.bytes k old)
      · rw [List.mem_singleton.mp new]
        exact lookup_append_of_none _ notInput

theorem mapArgStep_snd (offset length : Nat) (acc : Nat × Constraint) (i : Nat) :
    (mapArgStep xxhash buf offset length acc i).2 = { (mapByte buf (offset + i) acc.2).2 with
      shapes := assign (mapByte buf (offset + i) acc.2).2.shapes (u32 (offset + i))
        (if i = 0 then length else 0) } := by
  by_cases first : i = 0 <;> simp only [mapArgStep, first, if_true, if_false]

/-- `input_args` grows by symbolic slots only. -/
def SymbolicGrowth (args args' : List (Bool × Nat)) : Prop :=
  ∃ extra, args' = args ++ extra ∧ ∀ entry ∈ extra, entry.1 = true

theorem SymbolicGrowth.trans {args args' args'' : List (Bool × Nat)}
    (first : SymbolicGrowth args args') (second : SymbolicGrowth args' args'') :
    SymbolicGrowth args args'' := by
  obtain ⟨extra, rfl, symbolic⟩ := first
  obtain ⟨extra', rfl, symbolic'⟩ := second
  refine ⟨extra ++ extra', List.append_assoc _ _ _, fun entry member => ?_⟩
  rcases List.mem_append.mp member with early | late
  exacts [symbolic entry early, symbolic' entry late]

theorem mapArgStep_builtFrom (offset length : Nat) (acc : Nat × Constraint) (i : Nat) :
    SymbolicGrowth acc.2.inputArgs (mapArgStep xxhash buf offset length acc i).2.inputArgs ∧
      (acc.2.BuiltFrom buf → offset + i < 2 ^ 32 →
        (mapArgStep xxhash buf offset length acc i).2.BuiltFrom buf) := by
  rw [mapArgStep_snd]
  refine ⟨?_, fun built fits => built.mapShaped buf fits _⟩
  cases found : acc.2.localMap.lookup (offset + i) with
  | some slot => exact ⟨[], by rw [mapByte_of_found buf found, List.append_nil], nofun⟩
  | none =>
    rw [mapByte_of_absent buf found]
    exact ⟨[(true, 0)], rfl, by simp⟩

/-- `map_arg` adds only symbolic slots, and over offsets below `2 ^ 32` it keeps
the argument map. -/
theorem mapArg_builtFrom (offset length : Nat) (c : Constraint) :
    SymbolicGrowth c.inputArgs (mapArg xxhash buf offset length c).2.inputArgs ∧
      (c.BuiltFrom buf → (∀ i < length, offset + i < 2 ^ 32) →
        (mapArg xxhash buf offset length c).2.BuiltFrom buf) := by
  suffices loop : ∀ (indices : List Nat) (acc : Nat × Constraint),
      SymbolicGrowth acc.2.inputArgs (indices.foldl (mapArgStep xxhash buf offset length) acc).2.inputArgs ∧
        (acc.2.BuiltFrom buf → (∀ i ∈ indices, offset + i < 2 ^ 32) →
          (indices.foldl (mapArgStep xxhash buf offset length) acc).2.BuiltFrom buf) from
    (loop (List.range length) (0, c)).imp_right fun keeps built fits =>
      keeps built fun i member => fits i (List.mem_range.mp member)
  intro indices
  induction indices with
  | nil => exact fun acc => ⟨⟨[], by rw [List.foldl_nil, List.append_nil], nofun⟩, fun built _ => built⟩
  | cons i rest ih =>
    intro acc
    obtain ⟨stepGrowth, stepKeeps⟩ := mapArgStep_builtFrom xxhash buf offset length acc i
    obtain ⟨restGrowth, restKeeps⟩ := ih (mapArgStep xxhash buf offset length acc i)
    exact ⟨stepGrowth.trans restGrowth, fun built fits =>
      restKeeps (stepKeeps built (fits i (.head _))) fun j member => fits j (.tail _ member)⟩

end Mapping

/-! ## Constant slots -/

/-- The indices, counted from `start`, of the constant slots `(false, _)` of `args`. -/
def falseSlotsFrom : Nat → List (Bool × Nat) → List Nat
  | _, [] => []
  | start, (symbolic, _) :: rest =>
    if symbolic then falseSlotsFrom (start + 1) rest else start :: falseSlotsFrom (start + 1) rest

section FalseSlots

variable (start value : Nat) (rest : List (Bool × Nat))

@[simp] theorem falseSlotsFrom_symbolic_cons :
    falseSlotsFrom start ((true, value) :: rest) = falseSlotsFrom (start + 1) rest := rfl

@[simp] theorem falseSlotsFrom_constant_cons :
    falseSlotsFrom start ((false, value) :: rest) = start :: falseSlotsFrom (start + 1) rest := rfl

end FalseSlots

theorem falseSlotsFrom_append (l l' : List (Bool × Nat)) : ∀ start,
    falseSlotsFrom start (l ++ l') = falseSlotsFrom start l ++ falseSlotsFrom (start + l.length) l' := by
  induction l with
  | nil => intro start; rfl
  | cons entry rest ih =>
    intro start
    obtain ⟨symbolic, value⟩ := entry
    have shifted : start + 1 + rest.length = start + (rest.length + 1) := by omega
    cases symbolic <;> simp only [List.cons_append, falseSlotsFrom_symbolic_cons,
      falseSlotsFrom_constant_cons, ih, List.length_cons, shifted, List.cons_append]

theorem falseSlotsFrom_of_symbolic {l : List (Bool × Nat)} (symbolic : ∀ entry ∈ l, entry.1 = true) :
    ∀ start, falseSlotsFrom start l = [] := by
  induction l with
  | nil => intro _; rfl
  | cons entry rest ih =>
    intro start
    obtain ⟨flag, value⟩ := entry
    obtain rfl : flag = true := symbolic _ (.head _)
    exact ih (fun other member => symbolic other (.tail _ member)) _

theorem le_of_mem_falseSlotsFrom {l : List (Bool × Nat)} :
    ∀ {start slot : Nat}, slot ∈ falseSlotsFrom start l → start ≤ slot := by
  induction l with
  | nil => intro _ _ member; cases member
  | cons entry rest ih =>
    intro start slot member
    obtain ⟨symbolic, value⟩ := entry
    cases symbolic
    · rcases List.mem_cons.mp member with rfl | later
      · exact le_rfl
      · exact Nat.le_of_succ_le (ih later)
    · exact Nat.le_of_succ_le (ih member)

theorem nodup_falseSlotsFrom (l : List (Bool × Nat)) : ∀ start, (falseSlotsFrom start l).Nodup := by
  induction l with
  | nil => intro _; exact List.nodup_nil
  | cons entry rest ih =>
    intro start
    obtain ⟨symbolic, value⟩ := entry
    cases symbolic
    · exact List.nodup_cons.mpr
        ⟨fun member => absurd (le_of_mem_falseSlotsFrom member) (by omega), ih _⟩
    · exact ih _

theorem add_mem_falseSlotsFrom {l : List (Bool × Nat)} : ∀ {start j : Nat},
    start + j ∈ falseSlotsFrom start l ↔ (l[j]?).map Prod.fst = some false := by
  induction l with
  | nil => simp [falseSlotsFrom]
  | cons entry rest ih =>
    intro start j
    obtain ⟨symbolic, value⟩ := entry
    cases j with
    | zero =>
      cases symbolic
      · simp
      · simpa using fun member => absurd (le_of_mem_falseSlotsFrom member) (by omega)
    | succ j =>
      have shifted : start + (j + 1) = start + 1 + j := by omega
      cases symbolic
      · simp only [falseSlotsFrom_constant_cons, List.mem_cons, shifted, ih, List.getElem?_cons_succ,
          or_iff_right (by omega : start + 1 + j ≠ start)]
      · simp only [falseSlotsFrom_symbolic_cons, shifted, ih, List.getElem?_cons_succ]

theorem falseSlotsFrom_drop_trans {args args1 args2 : List (Bool × Nat)} (first : args <+: args1)
    (second : args1 <+: args2) :
    falseSlotsFrom args.length (args2.drop args.length) =
      falseSlotsFrom args.length (args1.drop args.length) ++
        falseSlotsFrom args1.length (args2.drop args1.length) := by
  obtain ⟨extra1, rfl⟩ := first
  obtain ⟨extra2, rfl⟩ := second
  have whole : (args ++ extra1 ++ extra2).drop args.length = extra1 ++ extra2 := by
    rw [List.append_assoc, List.drop_left]
  have left : (args ++ extra1).drop args.length = extra1 := List.drop_left _ _
  have right : (args ++ extra1 ++ extra2).drop (args ++ extra1).length = extra2 := List.drop_left _ _
  rw [whole, left, right, falseSlotsFrom_append, List.length_append]

/-- The slots of the `Constant` nodes of a lifted AST, left to right. -/
def AstNode.constantSlots : AstNode → List Nat
  | ⟨kind, _, _, index, _, _, []⟩ => if kind = .constant then [index] else []
  | ⟨_, _, _, _, _, _, [x]⟩ => x.constantSlots
  | ⟨_, _, _, _, _, _, [x, y]⟩ => x.constantSlots ++ y.constantSlots
  | _ => []

/-- Slot `node.index` of `args` holds the constant `immediate`, if `node` is a
`Constant` node. -/
def ConstantHolds (args : List (Bool × Nat)) (immediate : Nat) (node : AstNode) : Prop :=
  node.kind = .constant → args[node.index]? = some (false, immediate)

/-- Every `Constant` child of a lifted AST holds, in `args`, the immediate of its
operand: `op1` of the parent's label on the left, `op2` on the right. -/
def AstNode.ConstantsHold (t : LabelTable) (args : List (Bool × Nat)) : AstNode → Prop
  | ⟨_, _, label, _, _, _, [x]⟩ => ConstantHolds args (t label).op1 x ∧ x.ConstantsHold t args
  | ⟨_, _, label, _, _, _, [x, y]⟩ => ConstantHolds args (t label).op1 x ∧
      ConstantHolds args (t label).op2 y ∧ x.ConstantsHold t args ∧ y.ConstantsHold t args
  | _ => True

theorem getElem?_of_extension {α : Type} {l l' : List α} (grows : l <+: l') {n : Nat}
    (below : n < l.length) : l'[n]? = l[n]? := by
  obtain ⟨rest, rfl⟩ := grows
  exact List.getElem?_append_left below

theorem opMap_ne_constant {op : Op} {kind : Kind} (mapped : opMap op = some kind) :
    kind ≠ .constant := by
  rintro rfl
  cases op with
  | icmp pred => cases pred <;> cases mapped
  | _ => cases mapped

/-! ## Lifting keeps the argument map -/

/-- What lifting a label or an operand from `c` establishes of the node and
constraint it returns: slots stay consistent and only grow; the argument map is
kept once the offsets read fit in a `uint32_t`; the new constant slots are
exactly the node's `Constant` nodes, each holding its operand's immediate in
every later `input_args`. -/
structure ArgLifts (t : LabelTable) (buf : List Nat) (c : Constraint) (node : AstNode)
    (c' : Constraint) : Prop where
  wf : c'.SlotsWf
  grows : c.Extends c'
  built : c.BuiltFrom buf → (∀ offset ∈ c'.offsets, offset < 2 ^ 32) → c'.BuiltFrom buf
  constants : falseSlotsFrom c.inputArgs.length (c'.inputArgs.drop c.inputArgs.length) =
    node.constantSlots
  holds : ∀ args, c'.inputArgs <+: args → node.ConstantsHold t args

section Lifting

variable (xxhash : Nat → Nat → Nat → Nat) {t : LabelTable} (buf : List Nat)

theorem argLifts_visited {c : Constraint} (wf : c.SlotsWf) (label bits : Nat) :
    ArgLifts t buf c { AstNode.fresh with label, bits } c :=
  ⟨wf, .refl c, fun built _ => built, by rw [List.drop_length]; rfl, fun _ _ => trivial⟩

theorem argLifts_read {c : Constraint} (wf : c.SlotsWf) (offset length bits label : Nat) :
    ArgLifts t buf c ⟨.read, bits, label, offset, (mapArg xxhash buf offset length c).1, 0, []⟩
      (mapArg xxhash buf offset length c).2 := by
  obtain ⟨mappedWf, grows, mapped⟩ := mapArg_spec xxhash buf offset length wf
  obtain ⟨⟨extra, grown, symbolic⟩, keeps⟩ := mapArg_builtFrom xxhash buf offset length c
  refine ⟨mappedWf, grows, fun built fits => keeps built fun i below => ?_, ?_, fun _ _ => trivial⟩
  · obtain ⟨slot, found⟩ := mapped i below
    exact fits _ (lookup_isSome_iff.mp (by rw [found]; rfl))
  · rw [grown, List.drop_left]
    exact falseSlotsFrom_of_symbolic symbolic _

theorem operandArgLifts {lift : Nat → List Nat → Constraint → Lifted} {size slot immediate : Nat}
    {visited : List Nat} {c : Constraint} {child : AstNode} {visited' : List Nat} {c' : Constraint}
    (liftsSlot : ∀ visited c node visited' c', lift slot visited c = some (node, visited', c') →
      c.SlotsWf → ArgLifts t buf c node c' ∧ node.kind ≠ .constant)
    (lifted : liftOperand xxhash lift size slot immediate visited c = some (child, visited', c'))
    (wf : c.SlotsWf) :
    ArgLifts t buf c child c' ∧ ∀ args, c'.inputArgs <+: args → ConstantHolds args immediate child := by
  unfold liftOperand at lifted
  by_cases isLabel : constOffset ≤ slot
  · rw [if_pos isLabel] at lifted
    split at lifted
    · cases lifted
    · rename_i node v c1 found
      cases lifted
      obtain ⟨lifts, notConstant⟩ := liftsSlot _ _ _ _ _ found wf
      exact ⟨lifts, fun _ _ isConstant => absurd isConstant notConstant⟩
  · rw [if_neg isLabel] at lifted
    cases lifted
    refine ⟨⟨⟨wf.injective, fun entry member => ?_⟩, ⟨id, List.prefix_append _ _⟩,
      fun built _ => built.pushConstant immediate, ?_, fun _ _ => trivial⟩, fun args grows _ => ?_⟩
    · simpa using Nat.lt_succ_of_lt (wf.allocated entry member)
    · rw [List.drop_left]; rfl
    · rw [getElem?_of_extension grows (by simp)]
      simp

theorem argLifts_unary {c c1 : Constraint} {left : AstNode} {kind : Kind}
    {bits label index hash : Nat}
    (operand : ArgLifts t buf c left c1 ∧
      ∀ args, c1.inputArgs <+: args → ConstantHolds args (t label).op1 left) :
    ArgLifts t buf c ⟨kind, bits, label, index, hash, 0, [left]⟩ c1 :=
  ⟨operand.1.wf, operand.1.grows, operand.1.built, operand.1.constants,
    fun args grows => ⟨operand.2 args grows, operand.1.holds args grows⟩⟩

theorem argLifts_binary {c c1 c2 : Constraint} {left right : AstNode} {kind : Kind}
    {bits label index hash : Nat}
    (leftLifts : ArgLifts t buf c left c1 ∧
      ∀ args, c1.inputArgs <+: args → ConstantHolds args (t label).op1 left)
    (rightLifts : ArgLifts t buf c1 right c2 ∧
      ∀ args, c2.inputArgs <+: args → ConstantHolds args (t label).op2 right) :
    ArgLifts t buf c ⟨kind, bits, label, index, hash, 0, [left, right]⟩ c2 := by
  obtain ⟨leftArgs, leftHolds⟩ := leftLifts
  obtain ⟨rightArgs, rightHolds⟩ := rightLifts
  refine ⟨rightArgs.wf, leftArgs.grows.trans rightArgs.grows, fun built fits => ?_, ?_,
    fun args grows => ⟨leftHolds args (rightArgs.grows.inputArgs.trans grows), rightHolds args grows,
      leftArgs.holds args (rightArgs.grows.inputArgs.trans grows), rightArgs.holds args grows⟩⟩
  · exact rightArgs.built (leftArgs.built built fun offset member =>
      fits offset (Constraint.offsets_mono rightArgs.grows member)) fits
  · rw [falseSlotsFrom_drop_trans leftArgs.grows.inputArgs rightArgs.grows.inputArgs,
      leftArgs.constants, rightArgs.constants]
    rfl

/-- Every result of `do_uta_rel` satisfies `ArgLifts` and is not a `Constant` node. -/
theorem doUtaRel_argLifts : ∀ fuel label visited c node visited' c',
    doUtaRel xxhash t buf fuel label visited c = some (node, visited', c') → c.SlotsWf →
      ArgLifts t buf c node c' ∧ node.kind ≠ .constant := by
  intro fuel
  induction fuel with
  | zero => intro _ _ _ _ _ _ lifted; cases lifted
  | succ fuel ih =>
    intro label visited c node visited' c' lifted wf
    rw [doUtaRel] at lifted
    by_cases reserved : label < constOffset ∨ label = kInitializingLabel
    · rw [if_pos reserved] at lifted; cases lifted
    rw [if_neg reserved] at lifted
    by_cases member : label ∈ visited
    · rw [if_pos member] at lifted
      cases lifted
      exact ⟨argLifts_visited buf wf _ _, nofun⟩
    rw [if_neg member] at lifted
    by_cases isInput : (t label).op = .input
    · rw [if_pos isInput] at lifted
      cases lifted
      exact ⟨argLifts_read xxhash buf wf _ _ _ _, nofun⟩
    rw [if_neg isInput] at lifted
    by_cases isLoad : (t label).op = .load
    · rw [if_pos isLoad] at lifted
      cases lifted
      exact ⟨argLifts_read xxhash buf wf _ _ _ _, nofun⟩
    rw [if_neg isLoad] at lifted
    split at lifted
    · cases lifted
    rename_i kind mapped
    split at lifted
    · cases lifted
    rename_i left visited1 c1 liftedLeft
    have leftLifts := operandArgLifts xxhash buf (ih (t label).l1) liftedLeft wf
    split at lifted
    · cases lifted
      exact ⟨argLifts_unary buf leftLifts, opMap_ne_constant mapped⟩
    split at lifted
    · cases lifted
    rename_i right visited2 c2 liftedRight
    cases lifted
    exact ⟨argLifts_binary buf leftLifts
      (operandArgLifts xxhash buf (ih (t label).l2) liftedRight leftLifts.1.wf),
      opMap_ne_constant mapped⟩

theorem parseConstraint_argLifts {label : Nat} {c : Constraint}
    (lifted : parseConstraint xxhash t buf label = some c) : ArgLifts t buf Constraint.empty c.ast c := by
  unfold parseConstraint at lifted
  split at lifted
  · cases lifted
  rename_i ast visited c' found
  cases lifted
  obtain ⟨lifts, _⟩ := doUtaRel_argLifts xxhash buf _ _ _ _ _ _ _ found
    ⟨List.nodup_nil, by simp [Constraint.empty]⟩
  refine ⟨⟨lifts.wf.injective, lifts.wf.allocated⟩, ⟨lifts.grows.localMap, lifts.grows.inputArgs⟩,
    fun built fits => ?_, lifts.constants, lifts.holds⟩
  have built' := lifts.built built fits
  exact ⟨⟨built'.count, built'.keys, built'.injective, built'.mapped, built'.symbolic, built'.inputsKeys,
    built'.shapesKeys, built'.fits⟩, built'.bytes⟩

/-- On a DAG, `parse_constraint` builds the constraint of the unbounded
recursion, and, once the buffer is at most `2 ^ 32` bytes and the offsets it
reads lie inside it, that constraint has the argument-map invariant: `inputs`
holds each offset's byte; the constant slots are exactly the `Constant` nodes of
the AST, one slot each, holding their operands' immediates; and every lookup and
slot write of `finalize` is in range. -/
theorem parseConstraint_argMapWf (dag : t.Dag) {label : Nat} {c : Constraint}
    (lifted : parseConstraint xxhash t buf label = some c) (small : buf.length ≤ 2 ^ 32)
    (inside : ∀ offset ∈ c.offsets, offset < buf.length) :
    (∀ fuel, label < fuel →
        (doUtaRel xxhash t buf fuel label [] Constraint.empty).map (fun r => { r.2.2 with ast := r.1 }) = some c) ∧
      c.ArgMapWf ∧ (∀ offset ∈ c.offsets, c.inputs.lookup offset = buf[offset]?) ∧
      (∀ slot, (c.inputArgs[slot]?).map Prod.fst = some false ↔ slot ∈ c.ast.constantSlots) ∧
      c.ast.constantSlots.Nodup ∧ c.ast.ConstantsHold t c.inputArgs ∧
      ∀ offset slot, (offset, slot) ∈ c.localMap → slot < c.inputArgs.length ∧
        (c.inputs.lookup offset).isSome ∧ (c.shapes.lookup offset).isSome := by
  have lifts := parseConstraint_argLifts xxhash buf lifted
  have built := lifts.built (Constraint.empty_builtFrom buf)
    fun offset member => Nat.lt_of_lt_of_le (inside offset member) small
  have constants : falseSlotsFrom 0 c.inputArgs = c.ast.constantSlots := lifts.constants
  refine ⟨fun fuel enough => (parseConstraint_eq_doUtaRel xxhash buf dag enough).symm.trans lifted,
    built.toArgMapWf, fun offset member => ?_, fun slot => ?_, ?_, lifts.holds _ (List.prefix_refl _),
    fun offset slot member => ⟨built.allocated member, ?_, ?_⟩⟩
  · rw [built.bytes offset member, List.getD_eq_getElem?_getD, List.getElem?_eq_getElem (inside offset member)]
    rfl
  · have listed := @add_mem_falseSlotsFrom c.inputArgs 0 slot
    rw [Nat.zero_add, constants] at listed
    exact listed.symm
  · rw [← constants]
    exact nodup_falseSlotsFrom _ _
  · have key : offset ∈ c.offsets := List.mem_map.mpr ⟨_, member, rfl⟩
    exact lookup_isSome_iff.mpr ((built.inputsKeys offset).mpr key)
  · have key : offset ∈ c.offsets := List.mem_map.mpr ⟨_, member, rfl⟩
    exact lookup_isSome_iff.mpr ((built.shapesKeys offset).mpr key)

/-- Lifting label 5 of `collisionTable` (`7 == (in[0] + in[1]) + in[0]`) from the
bytes `[1, 2]` puts the constant 7 in slot 0 and maps offsets 0 and 1. -/
theorem collisionTable_five_argMapWf :
    ∃ c, parseConstraint (fun _ _ _ => 0) collisionTable [1, 2] 5 = some c ∧ c.offsets = [0, 1] ∧
      c.ArgMapWf ∧ c.ast.constantSlots = [0] :=
  ⟨_, rfl, rfl, (@parseConstraint_argMapWf (fun _ _ _ => 0) collisionTable [1, 2] collisionTable_dag 5 _ rfl
    (by decide) (by decide)).2.1, rfl⟩

end Lifting

end Symsan
