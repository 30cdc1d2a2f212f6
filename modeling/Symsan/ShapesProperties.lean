import Symsan.FinalizeProperties

/-!
# Shapes of the input bytes

`map_arg` records, for the bytes a Read or a Load covers, the group's byte
count on its first byte and 0 on the others, overwriting whatever an earlier
read of the same bytes recorded there. `finalize` copies each offset's shape
from the first constraint that holds it. So a Load followed by a read of one of
its inner bytes leaves two overlapping groups, in the constraint and in the
finalized task.
-/

set_option autoImplicit false

namespace Symsan

/-! ## Byte groupings -/

/-- Modelled from the spec: `shapes` groups the offsets of `present`. Each
offset with a shape `size > 0` starts the group of the `size` offsets from it,
all of them present; distinct groups share no offset; and each offset of shape 0
lies in exactly one group. -/
structure ShapesGrouping (shapes : List (Nat × Nat)) (present : List Nat) : Prop where
  within : ∀ start size, shapes.lookup start = some size → 0 < size →
    ∀ k < size, start + k ∈ present
  disjoint : ∀ start size start' size', shapes.lookup start = some size →
    shapes.lookup start' = some size' → 0 < size → 0 < size' → start ≠ start' →
    ∀ k < size, ∀ k' < size', start + k ≠ start' + k'
  inner : ∀ offset, shapes.lookup offset = some 0 →
    ∃! start, ∃ size, shapes.lookup start = some size ∧ 0 < size ∧ start ≤ offset ∧ offset < start + size

theorem not_shapesGrouping_of_nested {shapes : List (Nat × Nat)} {present : List Nat}
    {start size start' size' : Nat} (outer : shapes.lookup start = some size)
    (nested : shapes.lookup start' = some size') (nonempty : 0 < size') (after : start < start')
    (inside : start' < start + size) : ¬ ShapesGrouping shapes present := fun grouping =>
  grouping.disjoint start size start' size' outer nested (by omega) nonempty (by omega)
    (start' - start) (by omega) 0 nonempty (by omega)

/-! ## Shapes in `map_arg` -/

section Mapping

variable (xxhash : Nat → Nat → Nat → Nat) (buf : List Nat)

@[simp]
theorem mapByte_shapes (offset : Nat) (c : Constraint) : (mapByte buf offset c).2.shapes = c.shapes := by
  unfold mapByte
  split <;> rfl

/-- `map_arg` over offsets below `2 ^ 32` gives its first byte the group's
length and its other bytes 0, whatever they held before, and leaves every other
offset's shape alone. -/
theorem mapArg_shapes (offset length : Nat) (c : Constraint) (fits : offset + length ≤ 2 ^ 32)
    (k : Nat) : (mapArg xxhash buf offset length c).2.shapes.lookup k =
      if k = offset ∧ 0 < length then some length
      else if offset < k ∧ k < offset + length then some 0 else c.shapes.lookup k := by
  suffices loop : ∀ m ≤ length,
      ((List.range m).foldl (mapArgStep xxhash buf offset length) (0, c)).2.shapes.lookup k =
        if k = offset ∧ 0 < m then some length
        else if offset < k ∧ k < offset + m then some 0 else c.shapes.lookup k from
    loop length le_rfl
  intro m
  induction m with
  | zero => intro _; rw [if_neg (by omega), if_neg (by omega)]; rfl
  | succ m ih =>
    intro within
    rw [List.range_succ, List.foldl_append, List.foldl_cons, List.foldl_nil, mapArgStep_snd]
    dsimp only
    rw [lookup_assign, mapByte_shapes, ih (by omega), u32_of_lt (by omega)]
    by_cases last : k = offset + m
    · rw [if_pos last]
      by_cases first : m = 0
      · rw [if_pos first, if_pos (by omega)]
      · rw [if_neg first, if_neg (by omega), if_pos (by omega)]
    · have first : (k = offset ∧ 0 < m) ↔ (k = offset ∧ 0 < m + 1) := by omega
      have inner : (offset < k ∧ k < offset + m) ↔ (offset < k ∧ k < offset + (m + 1)) := by omega
      rw [if_neg last]
      simp only [first, inner]

/-- Reading an inner byte of a group that `map_arg` recorded makes it a group
of its own, nested in the first one. -/
theorem mapArg_inner_regroups (offset length : Nat) (c : Constraint) (fits : offset + length ≤ 2 ^ 32)
    {i : Nat} (inner : 0 < i) (inside : i < length) :
    let regrouped := (mapArg xxhash buf (offset + i) 1 (mapArg xxhash buf offset length c).2).2
    regrouped.shapes.lookup offset = some length ∧ regrouped.shapes.lookup (offset + i) = some 1 := by
  intro regrouped
  constructor
  · rw [mapArg_shapes xxhash buf _ _ _ (by omega), if_neg (by omega), if_neg (by omega),
      mapArg_shapes xxhash buf _ _ _ fits, if_pos ⟨rfl, by omega⟩]
  · rw [mapArg_shapes xxhash buf _ _ _ (by omega), if_pos ⟨rfl, by omega⟩]

end Mapping

/-! ## Shapes in `finalize` -/

/-- `finalize` of a fresh task whose constraints have the argument-map
invariant, with one comparison each, gives every offset the shape of the first
constraint that holds it, and no other offset a shape. -/
theorem finalize_copiesShapes (cs : List Constraint) (comparisons : List Kind)
    (lengths : comparisons.length = cs.length) (wf : ∀ c ∈ cs, c.ArgMapWf) :
    ∃ task, { SearchTask.empty with constraints := cs, comparisons }.finalize = .ok task ∧
      ∀ offset, task.shapes.lookup offset = firstShape cs offset := by
  obtain ⟨task, _, finalized, aggregated, -⟩ := finalize_total lengths wf
  exact ⟨task, finalized, aggregated.shapes⟩

/-- With the load sharing offset 1, offset 1 keeps the gapped constraint's
one-byte shape, offset 2 takes the load's 0, and offset 4, held by neither, gets
no shape. -/
theorem gappedLoad_copiesShapes :
    ∃ task, { SearchTask.empty with
        constraints := [gappedConstraint, loadConstraint], comparisons := [.equal, .memcmp] }.finalize = .ok task ∧
      task.shapes.lookup 1 = some 1 ∧ task.shapes.lookup 2 = some 0 ∧ task.shapes.lookup 4 = none := by
  obtain ⟨task, finalized, shapes⟩ :=
    finalize_copiesShapes [gappedConstraint, loadConstraint] [.equal, .memcmp] rfl gappedLoad_wf
  exact ⟨task, finalized, by rw [shapes]; rfl, by rw [shapes]; rfl, by rw [shapes]; rfl⟩

/-! ## A Load and a read of its inner byte -/

/-- Labels 1 and 2 read input bytes 0 and 1, 3 loads the two bytes from label
1's offset as one 16-bit value, 4 zero-extends byte 1 to 16 bits and 5 compares
the two. -/
def overlapTable : LabelTable := fun label =>
  match label with
  | 1 => ⟨0, 0, 0, 0, .input, 8⟩
  | 2 => ⟨0, 0, 1, 0, .input, 8⟩
  | 3 => ⟨1, 2, 0, 0, .load, 16⟩
  | 4 => ⟨2, 0, 0, 0, .zExt, 16⟩
  | 5 => ⟨3, 4, 0, 0, .icmp .bveq, 1⟩
  | _ => default

theorem overlapTable_dag : overlapTable.Dag := by
  intro label notInput
  match label with
  | 0 | 1 | 2 => exact absurd rfl notInput
  | 3 | 4 | 5 => decide
  | _ + 6 => exact absurd rfl notInput

/-- Lifting label 5 of `overlapTable` maps bytes 0 and 1 as the Load's group of
two and then byte 1 as a Read of its own, which regroups it
(`mapArg_inner_regroups`): the constraint records the groups `{0, 1}` and `{1}`,
and `finalize` copies both. -/
theorem parseConstraint_overlappingShapes :
    overlapTable.Dag ∧ ∃ c task, parseConstraint (fun _ _ _ => 0) overlapTable [0, 0] 5 = some c ∧
      c.shapes.lookup 0 = some 2 ∧ c.shapes.lookup 1 = some 1 ∧ ¬ ShapesGrouping c.shapes c.offsets ∧
      { SearchTask.empty with constraints := [c], comparisons := [.equal] }.finalize = .ok task ∧
      task.shapes.lookup 0 = some 2 ∧ task.shapes.lookup 1 = some 1 ∧
      ¬ ShapesGrouping task.shapes (task.inputs.map Prod.fst) := by
  obtain ⟨c, lifted, offsets, mapped⟩ :
      ∃ c, parseConstraint (fun _ _ _ => 0) overlapTable [0, 0] 5 = some c ∧ c.offsets = [0, 1] ∧
        c.shapes = (mapArg (fun _ _ _ => 0) [0, 0] (0 + 1) 1
          (mapArg (fun _ _ _ => 0) [0, 0] 0 2 Constraint.empty).2).2.shapes := ⟨_, rfl, rfl, rfl⟩
  obtain ⟨first, second⟩ :=
    mapArg_inner_regroups (fun _ _ _ => 0) [0, 0] 0 2 Constraint.empty (by norm_num) Nat.one_pos Nat.one_lt_two
  rw [← mapped] at first second
  have wf : c.ArgMapWf := ((parseConstraint_argLifts _ _ lifted).built (Constraint.empty_builtFrom _)
    fun offset member => by rw [offsets] at member; simp at member; omega).toArgMapWf
  obtain ⟨task, _, finalized, aggregated, -⟩ :=
    @finalize_total [c] [.equal] rfl fun _ member => List.eq_of_mem_singleton member ▸ wf
  have copied : ∀ offset ∈ c.offsets, task.shapes.lookup offset = c.shapes.lookup offset :=
    fun offset member => by
      rw [aggregated.shapes, firstShape, firstEntry, List.find?_singleton, if_pos (decide_eq_true member)]
      rfl
  have first' := (copied 0 (by simp [offsets])).trans first
  have second' := (copied 1 (by simp [offsets])).trans second
  exact ⟨overlapTable_dag, c, task, lifted, first, second,
    not_shapesGrouping_of_nested first second Nat.one_pos Nat.one_pos (by decide), finalized, first', second',
    not_shapesGrouping_of_nested first' second' Nat.one_pos Nat.one_pos (by decide)⟩

end Symsan
