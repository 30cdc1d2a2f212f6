import Symsan.Task
import Symsan.ArgMapProperties

/-!
# Properties of `SearchTask::finalize`

`finalize` interns the input offsets of every constraint into one global
array, in order of first occurrence, rewrites each constraint's symbolic slots
to global indices, records in `cmap` which constraints read each global byte,
and splits each constraint's offsets into runs of consecutive bytes for the
input-to-state search.

On constraints with the argument-map invariant of the lifter it never faults,
and each of these results is the one its comments describe: the loop over the
constraints keeps `Aggregated`, built from `OffsetsDone` for the loop over one
constraint's offsets. The runs it records are the maximal runs of consecutive
offsets whenever no offset is the sentinel `2 ^ 32 - 1` of its run detection.
-/

set_option autoImplicit false

namespace Symsan

/-! ## Loops and 32-bit arithmetic -/

theorem foldlM_total {α σ ε : Type} {step : σ → α → Except ε σ} (items : List α)
    (invariant : List α → σ → Prop)
    (next : ∀ seen item remaining state, items = seen ++ item :: remaining → invariant seen state →
      ∃ updated, step state item = .ok updated ∧ invariant (seen ++ [item]) updated) :
    ∀ initial, invariant [] initial → ∃ final, items.foldlM step initial = .ok final ∧ invariant items final := by
  have loop : ∀ remaining seen state, items = seen ++ remaining → invariant seen state →
      ∃ final, remaining.foldlM step state = .ok final ∧ invariant items final := by
    intro remaining
    induction remaining with
    | nil => intro seen state split holds; exact ⟨state, rfl, by rwa [split, List.append_nil]⟩
    | cons item remaining ih =>
      intro seen state split holds
      obtain ⟨updated, stepped, holds'⟩ := next seen item remaining state split holds
      obtain ⟨final, ran, done⟩ := ih (seen ++ [item]) updated (by rw [split, List.append_cons]) holds'
      exact ⟨final, by rw [List.foldlM_cons, stepped]; exact ran, done⟩
  exact fun initial holds => loop items [] initial rfl holds

theorem foldlM_project {α σ τ ε : Type} {step : σ → α → Except ε σ} (project : σ → τ)
    (update : τ → α → τ) (commutes : ∀ state item state', step state item = .ok state' →
      project state' = update (project state) item) :
    ∀ (items : List α) (state final : σ), items.foldlM step state = .ok final →
      project final = items.foldl update (project state) := by
  intro items
  induction items with
  | nil => intro state final ran; cases ran; rfl
  | cons item rest ih =>
    intro state final ran
    rw [List.foldlM_cons] at ran
    cases stepped : step state item with
    | error fault => rw [stepped] at ran; cases ran
    | ok state' =>
      rw [stepped] at ran
      rw [ih state' final ran, commutes state item state' stepped, List.foldl_cons]

theorem u32_of_lt {n : Nat} (small : n < 2 ^ 32) : u32 n = n := Nat.mod_eq_of_lt small

theorem u32Sub_of_le {a b : Nat} (le : b ≤ a) (small : a < 2 ^ 32) : u32Sub a b = a - b := by
  have shifted : a + (2 ^ 32 - b % 2 ^ 32) = a - b + 2 ^ 32 := by
    rw [Nat.mod_eq_of_lt (Nat.lt_of_le_of_lt le small)]; omega
  rw [u32Sub, shifted, Nat.add_mod_right, Nat.mod_eq_of_lt (by omega)]

theorem except_bind_ok {α β ε : Type} {x : Except ε α} {f : α → Except ε β} {b : β}
    (bound : (x >>= f) = .ok b) : ∃ a, x = .ok a ∧ f a = .ok b := by
  cases x with
  | error fault => cases bound
  | ok a => exact ⟨a, rfl, bound⟩

/-! ## Runs of consecutive offsets -/

/-- Modelled from the spec: `runs` are the maximal runs of consecutive offsets
among `keys`, as (start, length) pairs in ascending order, each run separated
from the next by a missing offset. -/
structure MaximalRuns (keys : List Nat) (runs : List (Nat × Nat)) : Prop where
  nonempty : ∀ run ∈ runs, 1 ≤ run.2
  within : ∀ run ∈ runs, ∀ j < run.2, run.1 + j ∈ keys
  covers : ∀ key ∈ keys, ∃ run ∈ runs, run.1 ≤ key ∧ key < run.1 + run.2
  separated : runs.Chain' fun run next => run.1 + run.2 < next.1

theorem separated_pairwise : ∀ {runs : List (Nat × Nat)},
    runs.Chain' (fun run next => run.1 + run.2 < next.1) →
      runs.Pairwise fun run next => run.1 + run.2 < next.1
  | [], _ => .nil
  | [_], _ => List.pairwise_singleton _ _
  | first :: second :: rest, chain => by
    obtain ⟨ordered, chain⟩ := List.chain'_cons.mp chain
    have later := separated_pairwise chain
    refine List.Pairwise.cons (fun run member => ?_) later
    rcases List.mem_cons.mp member with rfl | member
    · exact ordered
    · have := List.rel_of_pairwise_cons later member; omega

theorem MaximalRuns.extendRun {keys : List Nat} {runs : List (Nat × Nat)} {start size offset : Nat}
    (maximal : MaximalRuns keys (runs ++ [(start, size)])) (next : start + size = offset) :
    MaximalRuns (keys ++ [offset]) (runs ++ [(start, size + 1)]) := by
  have last : (start, size) ∈ runs ++ [(start, size)] := List.mem_append_right _ (List.mem_singleton_self _)
  refine ⟨fun run member => ?_, fun run member j below => ?_, fun key member => ?_, ?_⟩
  · rcases List.mem_append.mp member with old | new
    · exact maximal.nonempty run (List.mem_append_left _ old)
    · rw [List.mem_singleton.mp new]; omega
  · rcases List.mem_append.mp member with old | new
    · exact List.mem_append_left _ (maximal.within run (List.mem_append_left _ old) j below)
    · rw [List.mem_singleton.mp new] at below ⊢
      by_cases inside : j < size
      · exact List.mem_append_left _ (maximal.within _ last j inside)
      · exact List.mem_append_right _ (List.mem_singleton.mpr (by omega))
  · rcases List.mem_append.mp member with old | new
    · obtain ⟨run, inRuns, covered⟩ := maximal.covers key old
      rcases List.mem_append.mp inRuns with early | final
      · exact ⟨run, List.mem_append_left _ early, covered⟩
      · rw [List.mem_singleton.mp final] at covered
        exact ⟨(start, size + 1), List.mem_append_right _ (List.mem_singleton_self _), by
          dsimp only at covered ⊢; omega⟩
    · exact ⟨(start, size + 1), List.mem_append_right _ (List.mem_singleton_self _), by
        rw [List.mem_singleton.mp new]; dsimp only; omega⟩
  · have chain := maximal.separated
    rw [List.chain'_append] at chain ⊢
    refine ⟨chain.1, List.chain'_singleton _, fun run last next first => ?_⟩
    obtain rfl : (start, size + 1) = next := by simpa using first
    exact chain.2.2 run last (start, size) (by simp)

theorem MaximalRuns.startRun {keys : List Nat} {runs : List (Nat × Nat)} {start size offset : Nat}
    (maximal : MaximalRuns keys (runs ++ [(start, size)])) (gap : start + size < offset) :
    MaximalRuns (keys ++ [offset]) (runs ++ [(start, size)] ++ [(offset, 1)]) := by
  have here : offset ∈ keys ++ [offset] := List.mem_append_right _ (List.mem_singleton_self _)
  refine ⟨fun run member => ?_, fun run member j below => ?_, fun key member => ?_, ?_⟩
  · rcases List.mem_append.mp member with old | new
    · exact maximal.nonempty run old
    · rw [List.mem_singleton.mp new]
  · rcases List.mem_append.mp member with old | new
    · exact List.mem_append_left _ (maximal.within run old j below)
    · rw [List.mem_singleton.mp new] at below ⊢
      rwa [show j = 0 by omega]
  · rcases List.mem_append.mp member with old | new
    · obtain ⟨run, inRuns, covered⟩ := maximal.covers key old
      exact ⟨run, List.mem_append_left _ inRuns, covered⟩
    · exact ⟨(offset, 1), List.mem_append_right _ (List.mem_singleton_self _), by
        rw [List.mem_singleton.mp new]; dsimp only; omega⟩
  · rw [List.chain'_append]
    refine ⟨maximal.separated, List.chain'_singleton _, fun run last next first => ?_⟩
    obtain rfl : (start, size) = run := by simpa using last
    obtain rfl : (offset, 1) = next := by simpa using first
    exact gap

/-- The run bookkeeping of one iteration of `finalize`'s offset loop, on
(candidates, last offset, run size): a gap after the last offset closes the
run, and the offset joins the open one. The last offset starts as the
sentinel `-1`. -/
def runStep (run : List (Nat × Nat) × Nat × Nat) (offset : Nat) : List (Nat × Nat) × Nat × Nat :=
  if run.2.1 ≠ 2 ^ 32 - 1 ∧ u32 (run.2.1 + 1) ≠ offset then
    (run.1 ++ [(u32Sub (run.2.1 + 1) run.2.2, run.2.2)], u32 offset, u32 (0 + 1))
  else (run.1, u32 offset, u32 (run.2.2 + 1))

/-- The candidates recorded once the loop is done: the open run is closed. -/
def closeRuns (run : List (Nat × Nat) × Nat × Nat) : List (Nat × Nat) :=
  run.1 ++ [(u32Sub (run.2.1 + 1) run.2.2, run.2.2)]

/-- The run state after a non-empty ascending prefix `seen` of the offsets: the
closed candidates and the open run `(last + 1 - size, size)` are the maximal
runs of `seen`, and the open run ends at the last offset seen. -/
structure RunsSoFar (seen : List Nat) (run : List (Nat × Nat) × Nat × Nat) : Prop where
  last : seen.getLast? = some run.2.1
  sized : 1 ≤ run.2.2 ∧ run.2.2 ≤ run.2.1 + 1
  fits : run.2.1 < 2 ^ 32 - 1
  maximal : MaximalRuns seen (run.1 ++ [(run.2.1 + 1 - run.2.2, run.2.2)])

theorem runsSoFar_single {offset : Nat} (fits : offset < 2 ^ 32 - 1) :
    RunsSoFar [offset] (runStep ([], 2 ^ 32 - 1, 0) offset) := by
  have first : runStep ([], 2 ^ 32 - 1, 0) offset = ([], offset, 1) := by
    unfold runStep; dsimp only
    rw [if_neg fun sentinel => sentinel.1 rfl, u32_of_lt (by omega)]
    rfl
  rw [first]
  refine ⟨rfl, by dsimp only; omega, fits, ⟨?_, ?_, ?_, List.chain'_singleton _⟩⟩ <;> simp

theorem RunsSoFar.step {seen : List Nat} {run : List (Nat × Nat) × Nat × Nat} {offset : Nat}
    (sofar : RunsSoFar seen run) (above : run.2.1 < offset) (fits : offset < 2 ^ 32 - 1) :
    RunsSoFar (seen ++ [offset]) (runStep run offset) := by
  obtain ⟨closed, last, size⟩ := run
  obtain ⟨lastSeen, sized, lastFits, maximal⟩ := sofar
  dsimp only at lastSeen sized lastFits maximal above ⊢
  have next : u32 (last + 1) = last + 1 := u32_of_lt (by omega)
  have here : (seen ++ [offset]).getLast? = some offset := by simp
  unfold runStep; dsimp only
  by_cases adjacent : last + 1 = offset
  · rw [if_neg fun gap => gap.2 (next.trans adjacent), u32_of_lt (by omega : offset < 2 ^ 32),
      u32_of_lt (by omega : size + 1 < 2 ^ 32)]
    have extended := maximal.extendRun (show last + 1 - size + size = offset by omega)
    rw [show last + 1 - size = offset + 1 - (size + 1) by omega] at extended
    exact ⟨here, by dsimp only; omega, fits, extended⟩
  · rw [if_pos ⟨by omega, by rw [next]; exact adjacent⟩, u32Sub_of_le sized.2 (by omega),
      u32_of_lt (by omega : offset < 2 ^ 32), u32_of_lt (by omega : 0 + 1 < 2 ^ 32)]
    have started := maximal.startRun (show last + 1 - size + size < offset by omega)
    exact ⟨here, by dsimp only; omega, fits, by simpa using started⟩

theorem RunsSoFar.foldl {seen : List Nat} {run : List (Nat × Nat) × Nat × Nat}
    (sofar : RunsSoFar seen run) : ∀ rest : List Nat, (seen ++ rest).Pairwise (· < ·) →
      (∀ offset ∈ rest, offset < 2 ^ 32 - 1) → RunsSoFar (seen ++ rest) (rest.foldl runStep run) := by
  intro rest
  induction rest generalizing seen run with
  | nil => intro _ _; rwa [List.append_nil]
  | cons offset rest ih =>
    intro ascending fits
    have above : run.2.1 < offset := (List.pairwise_append.mp ascending).2.2 _
      (List.mem_of_getLast?_eq_some sofar.last) _ (List.mem_cons_self _ _)
    have stepped := sofar.step above (fits offset (List.mem_cons_self _ _))
    rw [← List.singleton_append, ← List.append_assoc] at ascending ⊢
    exact ih stepped ascending fun other member => fits other (List.mem_cons_of_mem _ member)

/-- On non-empty ascending offsets below the sentinel, the candidates are the
maximal runs. -/
theorem closeRuns_maximal {keys : List Nat} (ascending : keys.Pairwise (· < ·)) (nonempty : keys ≠ [])
    (fits : ∀ offset ∈ keys, offset < 2 ^ 32 - 1) :
    MaximalRuns keys (closeRuns (keys.foldl runStep ([], 2 ^ 32 - 1, 0))) := by
  obtain ⟨first, rest, rfl⟩ := List.exists_cons_of_ne_nil nonempty
  have done := (runsSoFar_single (fits first (List.mem_cons_self _ _))).foldl rest ascending
    fun offset member => fits offset (List.mem_cons_of_mem _ member)
  rw [List.foldl_cons]
  obtain ⟨_, sized, lastFits, maximal⟩ := done
  rwa [closeRuns, u32Sub_of_le sized.2 (by omega)]

theorem MaximalRuns.of_perm {keys keys' : List Nat} {runs : List (Nat × Nat)} (perm : List.Perm keys keys')
    (maximal : MaximalRuns keys runs) : MaximalRuns keys' runs :=
  ⟨maximal.nonempty, fun run member j below => perm.mem_iff.mp (maximal.within run member j below),
    fun key member => maximal.covers key (perm.mem_iff.mpr member), maximal.separated⟩

/-! ## One iteration of the offset loop -/

/-- The run bookkeeping of the offset loop's state. -/
def OffsetLoop.run (s : OffsetLoop) : List (Nat × Nat) × Nat × Nat :=
  (s.i2sCandidates, s.lastOffset, s.size)

/-- The first half of the offset loop's body: the global index of `offset`,
interned on first sight with the constraint's byte and shape. -/
def internOffset (c : Constraint) (s : OffsetLoop) (offset : Nat) : Except Fault (Nat × OffsetLoop) :=
  match s.symMap.lookup (u32 offset) with
  | some gidx => pure (gidx, s)
  | none =>
    match c.inputs.lookup (u32 offset), c.shapes.lookup (u32 offset) with
    | some byte, some shape => pure (u32 s.inputs.length, { s with
        symMap := assign s.symMap (u32 offset) (u32 s.inputs.length)
        inputs := s.inputs ++ [(u32 offset, byte)]
        shapes := assign s.shapes (u32 offset) shape })
    | _, _ => throw .missingKey

/-- The second half: record constraint `i` in `cmap`, write the global index
into slot `lidx`, and advance the run bookkeeping. -/
def recordOffset (i : Nat) (comparison : Kind) (offset lidx : Nat) (interned : Nat × OffsetLoop) :
    Except Fault OffsetLoop := do
  let (gidx, s) := interned
  let cmap := if comparison ≠ .memcmp ∧ comparison ≠ .memcmpN then pushAt s.cmap gidx i else s.cmap
  let some (symbolic, _) := s.inputArgs.get? lidx | throw .outOfRange
  let (i2sCandidates, size) :=
    if s.lastOffset ≠ 2 ^ 32 - 1 ∧ u32 (s.lastOffset + 1) ≠ offset then
      (s.i2sCandidates ++ [(u32Sub (s.lastOffset + 1) s.size, s.size)], 0)
    else (s.i2sCandidates, s.size)
  pure { s with
    cmap := cmap
    inputArgs := s.inputArgs.set lidx (symbolic, gidx)
    i2sCandidates := i2sCandidates
    lastOffset := u32 offset
    size := u32 (size + 1) }

theorem finalizeOffset_eq (c : Constraint) (i : Nat) (comparison : Kind) (s : OffsetLoop)
    (offset lidx : Nat) : finalizeOffset c i comparison s (offset, lidx) =
      internOffset c s offset >>= recordOffset i comparison offset lidx := by
  unfold finalizeOffset internOffset
  dsimp only
  cases s.symMap.lookup (u32 offset) <;> cases c.inputs.lookup (u32 offset) <;>
    cases c.shapes.lookup (u32 offset) <;> rfl

section OffsetStep

variable {c : Constraint} {s : OffsetLoop} {offset : Nat}

theorem internOffset_known {gidx : Nat} (found : s.symMap.lookup (u32 offset) = some gidx) :
    internOffset c s offset = .ok (gidx, s) := by
  simp only [internOffset, found]; rfl

theorem internOffset_new {byte shape : Nat} (absent : s.symMap.lookup (u32 offset) = none)
    (read : c.inputs.lookup (u32 offset) = some byte) (shaped : c.shapes.lookup (u32 offset) = some shape) :
    internOffset c s offset = .ok (u32 s.inputs.length, { s with
      symMap := assign s.symMap (u32 offset) (u32 s.inputs.length)
      inputs := s.inputs ++ [(u32 offset, byte)]
      shapes := assign s.shapes (u32 offset) shape }) := by
  simp only [internOffset, absent, read, shaped]; rfl

theorem internOffset_keeps {gidx : Nat} {s' : OffsetLoop}
    (interned : internOffset c s offset = .ok (gidx, s')) :
    s'.run = s.run ∧ s'.cmap = s.cmap ∧ s'.inputArgs = s.inputArgs := by
  unfold internOffset at interned
  split at interned
  · cases interned; exact ⟨rfl, rfl, rfl⟩
  · split at interned
    · cases interned; exact ⟨rfl, rfl, rfl⟩
    · cases interned

variable {i : Nat} {comparison : Kind} {lidx gidx : Nat}

theorem recordOffset_ok {symbolic : Bool} {value : Nat} (slot : s.inputArgs[lidx]? = some (symbolic, value)) :
    recordOffset i comparison offset lidx (gidx, s) = .ok { s with
      cmap := if comparison ≠ .memcmp ∧ comparison ≠ .memcmpN then pushAt s.cmap gidx i else s.cmap
      inputArgs := s.inputArgs.set lidx (symbolic, gidx)
      i2sCandidates := (runStep s.run offset).1
      lastOffset := (runStep s.run offset).2.1
      size := (runStep s.run offset).2.2 } := by
  unfold recordOffset runStep OffsetLoop.run
  simp only [List.get?_eq_getElem?, slot]
  by_cases gap : s.lastOffset ≠ 2 ^ 32 - 1 ∧ u32 (s.lastOffset + 1) ≠ offset
  · rw [if_pos gap, if_pos gap]; rfl
  · rw [if_neg gap, if_neg gap]; rfl

theorem recordOffset_run {s' : OffsetLoop}
    (recorded : recordOffset i comparison offset lidx (gidx, s) = .ok s') :
    s'.run = runStep s.run offset := by
  cases slot : s.inputArgs[lidx]? with
  | none => simp [recordOffset, List.get?_eq_getElem?, slot] at recorded
  | some entry =>
    rw [recordOffset_ok slot] at recorded
    cases recorded
    rfl

end OffsetStep

theorem finalizeOffset_run {c : Constraint} {i : Nat} {comparison : Kind} {s s' : OffsetLoop}
    {entry : Nat × Nat} (step : finalizeOffset c i comparison s entry = .ok s') :
    s'.run = runStep s.run entry.1 := by
  obtain ⟨offset, lidx⟩ := entry
  rw [finalizeOffset_eq] at step
  obtain ⟨⟨gidx, interned⟩, internedOk, recorded⟩ := except_bind_ok step
  rw [recordOffset_run recorded, (internOffset_keeps internedOk).1]

/-! ## The iteration order of `local_map` -/

/-- The offsets of `local_map` in iteration order. -/
def Constraint.sortedOffsets (c : Constraint) : List Nat := (byOffset c.localMap).map Prod.fst

theorem Constraint.sortedOffsets_perm (c : Constraint) : List.Perm c.sortedOffsets c.offsets :=
  (List.mergeSort_perm _ _).map Prod.fst

theorem Constraint.sortedOffsets_ascending {c : Constraint} (distinct : c.offsets.Nodup) :
    c.sortedOffsets.Pairwise (· < ·) := by
  have merged : (byOffset c.localMap).Pairwise fun a b => decide (a.1 ≤ b.1) :=
    List.sorted_mergeSort (fun a b c first second => by simp only [decide_eq_true_eq] at first second ⊢; omega)
      (fun a b => by simp only [Bool.or_eq_true, decide_eq_true_eq]; omega) c.localMap
  have sorted : c.sortedOffsets.Pairwise (· ≤ ·) :=
    List.pairwise_map.mpr (merged.imp fun ordered => by simpa using ordered)
  exact (sorted.and (c.sortedOffsets_perm.nodup_iff.mpr distinct)).imp
    fun ordered => Nat.lt_of_le_of_ne ordered.1 ordered.2

theorem Constraint.sortedOffsets_of_sorted {c : Constraint}
    (sorted : c.localMap.Pairwise fun a b => decide (a.1 ≤ b.1)) : c.sortedOffsets = c.offsets := by
  rw [Constraint.sortedOffsets, byOffset, List.mergeSort_of_sorted sorted, Constraint.offsets]

/-! ## The global input array -/

/-- Modelled from the spec: the elements of a list in order of first
occurrence, each once. -/
def firstSeen : List Nat → List Nat
  | [] => []
  | x :: rest => x :: (firstSeen rest).filter (· ≠ x)

theorem mem_firstSeen {x : Nat} : ∀ {l : List Nat}, x ∈ firstSeen l ↔ x ∈ l
  | [] => Iff.rfl
  | y :: rest => by
    by_cases same : x = y
    · simp [firstSeen, same]
    · simp [firstSeen, same, mem_firstSeen]

theorem nodup_firstSeen : ∀ l : List Nat, (firstSeen l).Nodup
  | [] => List.nodup_nil
  | x :: rest => List.nodup_cons.mpr ⟨by simp, (nodup_firstSeen rest).filter _⟩

theorem firstSeen_append_singleton (x : Nat) : ∀ l : List Nat,
    firstSeen (l ++ [x]) = if x ∈ l then firstSeen l else firstSeen l ++ [x]
  | [] => by simp [firstSeen]
  | y :: rest => by
    rw [List.cons_append, firstSeen, firstSeen_append_singleton x rest, firstSeen]
    by_cases old : x ∈ rest
    · rw [if_pos old, if_pos (List.mem_cons_of_mem _ old)]
    · rw [if_neg old, List.filter_append]
      by_cases same : x = y
      · subst same
        simp
      · rw [if_neg (by simp [same, old])]
        simp [same]

/-- The entry of `field` for `offset` in the first constraint whose `local_map`
has it. -/
def firstEntry (field : Constraint → List (Nat × Nat)) (cs : List Constraint) (offset : Nat) :
    Option Nat :=
  (cs.find? fun c => decide (offset ∈ c.offsets)).bind fun c => (field c).lookup offset

/-- The byte `inputs` gives `offset` in the first constraint that holds it. -/
def firstByte (cs : List Constraint) (offset : Nat) : Option Nat := firstEntry Constraint.inputs cs offset

/-- The shape `shapes` gives `offset` in the first constraint that holds it. -/
def firstShape (cs : List Constraint) (offset : Nat) : Option Nat := firstEntry Constraint.shapes cs offset

/-- `sym_map` sends each offset of the global `inputs` to its index there, and
no other offset; the offsets are distinct `uint32_t` keys. -/
structure Interned (symMap inputs : List (Nat × Nat)) : Prop where
  index : ∀ offset g, symMap.lookup offset = some g ↔ (inputs[g]?).map Prod.fst = some offset
  nodup : (inputs.map Prod.fst).Nodup
  fits : ∀ offset ∈ inputs.map Prod.fst, offset < 2 ^ 32

theorem Interned.empty : Interned [] [] := ⟨fun _ _ => by simp, List.nodup_nil, nofun⟩

theorem Interned.absent_iff {symMap inputs : List (Nat × Nat)} (interned : Interned symMap inputs)
    {offset : Nat} : symMap.lookup offset = none ↔ offset ∉ inputs.map Prod.fst := by
  rw [List.mem_iff_getElem?, not_exists, ← Option.not_isSome_iff_eq_none, Option.isSome_iff_exists]
  simp only [List.getElem?_map, interned.index, not_exists]

theorem Interned.length_lt {symMap inputs : List (Nat × Nat)} (interned : Interned symMap inputs)
    {offset : Nat} (fresh : offset ∉ inputs.map Prod.fst) (fits : offset < 2 ^ 32) :
    inputs.length < 2 ^ 32 := by
  have counted := (List.subperm_of_subset (List.nodup_cons.mpr ⟨fresh, interned.nodup⟩)
    fun key member => List.mem_range.mpr <| by
      rcases List.mem_cons.mp member with rfl | old
      exacts [fits, interned.fits key old]).length_le
  simp only [List.length_cons, List.length_map, List.length_range] at counted
  omega

theorem Interned.push {symMap inputs : List (Nat × Nat)} (interned : Interned symMap inputs)
    {offset : Nat} (fresh : offset ∉ inputs.map Prod.fst) (fits : offset < 2 ^ 32) (byte : Nat) :
    Interned (symMap ++ [(offset, inputs.length)]) (inputs ++ [(offset, byte)]) := by
  have absent := interned.absent_iff.mpr fresh
  refine ⟨fun key g => ?_, ?_, ?_⟩
  · rw [← List.getElem?_map, List.map_append, List.map_singleton, getElem?_snoc_eq_some, List.length_map]
    by_cases same : key = offset
    · subst same
      rw [lookup_append_of_none _ absent, Option.some.injEq]
      exact ⟨fun found => .inr ⟨found.symm, rfl⟩,
        fun found => found.elim (fun old => absurd (List.getElem?_mem old.2) fresh) fun last => last.1.symm⟩
    · rw [lookup_append_of_ne _ _ same, interned.index, ← List.getElem?_map]
      exact ⟨fun found => .inl ⟨by simpa using (List.getElem?_eq_some_iff.mp found).1, found⟩,
        fun found => found.elim And.right fun last => absurd last.2.symm same⟩
  · rw [List.map_append]
    exact interned.nodup.append (List.nodup_singleton _) (List.disjoint_singleton.mpr fresh)
  · intro key member
    rw [List.map_append, List.mem_append, List.map_singleton, List.mem_singleton] at member
    rcases member with old | rfl
    exacts [interned.fits key old, fits]

section Maps

variable {α : Type}

theorem lookup_map_replace (map : List (Nat × α)) (key : Nat) (value : α) (k : Nat) :
    (map.map fun entry => if entry.1 = key then (key, value) else entry).lookup k =
      if k = key then (map.lookup k).map fun _ => value else map.lookup k := by
  induction map with
  | nil => split <;> rfl
  | cons entry rest ih =>
    obtain ⟨a, b⟩ := entry
    by_cases hit : a = key
    · subst hit
      simp only [List.map_cons, eq_self_iff_true, if_true]
      by_cases same : k = a
      · subst same; simp [List.lookup]
      · simp [List.lookup, beq_false_of_ne same, same, ih]
    · simp only [List.map_cons, hit, if_false]
      by_cases same : k = a
      · subst same; simp [List.lookup, hit]
      · simp only [List.lookup, beq_false_of_ne same, ih]

theorem lookup_assign (map : List (Nat × α)) (key : Nat) (value : α) (k : Nat) :
    (assign map key value).lookup k = if k = key then some value else map.lookup k := by
  unfold assign
  split
  · rename_i found
    rw [lookup_map_replace]
    by_cases same : k = key
    · rw [if_pos same, if_pos same, same, found]; rfl
    · rw [if_neg same, if_neg same]
  · rename_i absent
    by_cases same : k = key
    · rw [if_pos same, same, lookup_append_of_none _ absent]
    · rw [if_neg same, lookup_append_of_ne _ _ same]

end Maps

theorem lookup_pushAt (map : List (Nat × List Nat)) (key value k : Nat) :
    ((pushAt map key value).lookup k).getD [] =
      if k = key then (map.lookup key).getD [] ++ [value] else (map.lookup k).getD [] := by
  unfold pushAt
  split
  · rename_i values found
    rw [lookup_assign, found]
    split <;> rfl
  · rename_i absent
    by_cases same : k = key
    · rw [if_pos same, same, lookup_append_of_none _ absent, absent]; rfl
    · rw [if_neg same, lookup_append_of_ne _ _ same]

/-- `cmap` skips the memcmp constraints. -/
def countsInCmap (comparison : Kind) : Bool := comparison != .memcmp && comparison != .memcmpN

/-- The indices, ascending, of the constraints among `cs` that `cmap` lists for
`offset`: those whose comparison is neither `Memcmp` nor `MemcmpN` and whose
`local_map` holds the offset. -/
def readers (comparisons : List Kind) (cs : List Constraint) (offset : Nat) : List Nat :=
  (List.range cs.length).filter fun i =>
    (comparisons[i]?.any countsInCmap) && (cs[i]?.any fun c => decide (offset ∈ c.offsets))

theorem readers_append_singleton (comparisons : List Kind) (cs : List Constraint) (c : Constraint)
    {comparison : Kind} (compared : comparisons[cs.length]? = some comparison) (offset : Nat) :
    readers comparisons (cs ++ [c]) offset = readers comparisons cs offset ++
      if countsInCmap comparison = true ∧ offset ∈ c.offsets then [cs.length] else [] := by
  unfold readers
  rw [List.length_append, List.length_singleton, List.range_succ, List.filter_append]
  congr 1
  · refine List.filter_congr fun i member => ?_
    rw [List.getElem?_append_left (List.mem_range.mp member)]
  · rw [List.filter_cons, List.filter_nil, List.getElem?_concat_length, compared]
    simp only [Option.any_some, Bool.and_eq_true, decide_eq_true_eq]

theorem getElem?_fst_of_extension {inputs inputs' : List (Nat × Nat)} (grows : inputs <+: inputs')
    {g offset : Nat} (located : (inputs[g]?).map Prod.fst = some offset) :
    (inputs'[g]?).map Prod.fst = some offset := by
  have below : g < inputs.length := by
    by_contra outside
    rw [List.getElem?_eq_none (Nat.le_of_not_lt outside)] at located
    cases located
  rwa [getElem?_of_extension grows below]

section FirstEntry

variable {field : Constraint → List (Nat × Nat)}

theorem firstEntry_append {done : List Constraint} {offset value : Nat}
    (found : firstEntry field done offset = some value) (more : List Constraint) :
    firstEntry field (done ++ more) offset = some value := by
  unfold firstEntry at found ⊢
  obtain ⟨c, located, read⟩ := Option.bind_eq_some.mp found
  rw [List.find?_append, located]
  exact read

theorem firstEntry_of_unheld {cs : List Constraint} {offset : Nat} (unheld : ∀ c ∈ cs, offset ∉ c.offsets) :
    firstEntry field cs offset = none := by
  rw [firstEntry, List.find?_eq_none.mpr fun c member => by simpa using unheld c member]
  rfl

theorem firstEntry_append_of_held {done : List Constraint} {offset : Nat}
    (held : ∃ c ∈ done, offset ∈ c.offsets) (more : List Constraint) :
    firstEntry field (done ++ more) offset = firstEntry field done offset := by
  obtain ⟨c, member, holds⟩ := held
  have found : (done.find? fun c => decide (offset ∈ c.offsets)).isSome :=
    List.find?_isSome.mpr ⟨c, member, decide_eq_true holds⟩
  obtain ⟨d, found⟩ := Option.isSome_iff_exists.mp found
  rw [firstEntry, firstEntry, List.find?_append, found]
  rfl

theorem firstEntry_new {done : List Constraint} {c : Constraint} {offset value : Nat}
    (unseen : ∀ d ∈ done, offset ∉ d.offsets) (member : offset ∈ c.offsets)
    (read : (field c).lookup offset = some value) : firstEntry field (done ++ [c]) offset = some value := by
  rw [firstEntry, List.find?_append, List.find?_eq_none.mpr fun d inDone => by simpa using unseen d inDone]
  simp [member, read]

end FirstEntry

theorem mem_firstSeen_flatMap {cs : List Constraint} {offset : Nat} :
    offset ∈ firstSeen (cs.flatMap Constraint.sortedOffsets) ↔ ∃ c ∈ cs, offset ∈ c.offsets := by
  rw [mem_firstSeen, List.mem_flatMap]
  exact exists_congr fun c => and_congr_right fun _ => c.sortedOffsets_perm.mem_iff

/-- What `finalize` records for constraint `c`, at index `i`, against the
global `inputs`: its comparison, and its slots with the slot of every mapped
offset rewritten to `(true, g)` for the global index `g` of that offset, and
every constant kept. -/
structure MetaFor (comparisons : List Kind) (inputs : List (Nat × Nat)) (i : Nat) (c : Constraint)
    (meta : ConsMeta) : Prop where
  comparison : comparisons[i]? = some meta.comparison
  length : meta.inputArgs.length = c.inputArgs.length
  symbolic : ∀ offset slot, (offset, slot) ∈ c.localMap →
    ∃ g, meta.inputArgs[slot]? = some (true, g) ∧ (inputs[g]?).map Prod.fst = some offset
  constants : ∀ slot value : Nat, c.inputArgs[slot]? = some (false, value) →
    meta.inputArgs[slot]? = some (false, value)

theorem MetaFor.mono {comparisons : List Kind} {inputs inputs' : List (Nat × Nat)} {i : Nat}
    {c : Constraint} {meta : ConsMeta} (holds : MetaFor comparisons inputs i c meta)
    (grows : inputs <+: inputs') : MetaFor comparisons inputs' i c meta :=
  ⟨holds.comparison, holds.length, fun offset slot member =>
    (holds.symbolic offset slot member).imp fun _ found => ⟨found.1, getElem?_fst_of_extension grows found.2⟩,
    holds.constants⟩

/-! ## The offset loop of one constraint -/

/-- The state of the offset loop of constraint `c`, the one after `done`, with
comparison `comparison`, from the global inputs `base`: the offsets `keys` are
interned and the entries `seen` of `local_map` recorded. -/
structure OffsetsDone (comparisons : List Kind) (done : List Constraint) (c : Constraint)
    (comparison : Kind) (base : List (Nat × Nat)) (keys : List Nat) (seen : List (Nat × Nat))
    (s : OffsetLoop) : Prop where
  interned : Interned s.symMap s.inputs
  grows : base <+: s.inputs
  order : s.inputs.map Prod.fst = firstSeen keys
  bytes : ∀ entry ∈ s.inputs, firstByte (done ++ [c]) entry.1 = some entry.2
  shapes : ∀ offset, s.shapes.lookup offset =
    if offset ∈ s.inputs.map Prod.fst then firstShape (done ++ [c]) offset else none
  cmap : ∀ g offset, (s.inputs[g]?).map Prod.fst = some offset → (s.cmap.lookup g).getD [] =
    readers comparisons done offset ++
      if countsInCmap comparison = true ∧ offset ∈ seen.map Prod.fst then [done.length] else []
  cmapPast : ∀ g, s.inputs.length ≤ g → (s.cmap.lookup g).getD [] = []
  length : s.inputArgs.length = c.inputArgs.length
  written : ∀ entry ∈ seen,
    ∃ g, s.inputArgs[entry.2]? = some (true, g) ∧ (s.inputs[g]?).map Prod.fst = some entry.1
  untouched : ∀ slot, (∀ entry ∈ seen, entry.2 ≠ slot) → s.inputArgs[slot]? = c.inputArgs[slot]?

section OffsetLoop

variable {comparisons : List Kind} {done : List Constraint} {c : Constraint} {comparison : Kind}
  {base : List (Nat × Nat)} {keys : List Nat} {seen : List (Nat × Nat)} {s : OffsetLoop}

theorem readers_of_unseen {offset : Nat} (unseen : ∀ d ∈ done, offset ∉ d.offsets) :
    readers comparisons done offset = [] := by
  refine List.filter_eq_nil_iff.mpr fun i member => ?_
  cases picked : done[i]? with
  | none => simp [picked]
  | some d => simp [picked, unseen d (List.getElem?_mem picked)]

theorem OffsetsDone.intern (wf : c.ArgMapWf)
    (state : OffsetsDone comparisons done c comparison base keys seen s)
    (keysOf : keys = done.flatMap Constraint.sortedOffsets ++ seen.map Prod.fst)
    {offset : Nat} (member : offset ∈ c.offsets) (fresh : offset ∉ seen.map Prod.fst) :
    ∃ g s1, internOffset c s offset = .ok (g, s1) ∧ (s1.inputs[g]?).map Prod.fst = some offset ∧
      OffsetsDone comparisons done c comparison base (keys ++ [offset]) seen s1 := by
  have key : u32 offset = offset := u32_of_lt (wf.fits offset member)
  cases found : s.symMap.lookup offset with
  | some g =>
    have located := (state.interned.index offset g).mp found
    have old : offset ∈ keys := mem_firstSeen.mp (state.order ▸ List.mem_iff_getElem?.mpr
      ⟨g, by rw [List.getElem?_map]; exact located⟩)
    refine ⟨g, s, by rw [← key] at found; exact internOffset_known found, located,
      { state with order := ?_ }⟩
    rw [firstSeen_append_singleton, if_pos old, state.order]
  | none =>
    have absent := state.interned.absent_iff.mp found
    have unkept : offset ∉ keys := fun old => absent (state.order ▸ mem_firstSeen.mpr old)
    have unseen : ∀ d ∈ done, offset ∉ d.offsets := fun d inDone onD =>
      unkept (keysOf ▸ List.mem_append_left _ (List.mem_flatMap.mpr
        ⟨d, inDone, d.sortedOffsets_perm.mem_iff.mpr onD⟩))
    obtain ⟨byte, read⟩ := Option.isSome_iff_exists.mp
      (lookup_isSome_iff.mpr ((wf.inputsKeys offset).mpr member))
    obtain ⟨shape, shaped⟩ := Option.isSome_iff_exists.mp
      (lookup_isSome_iff.mpr ((wf.shapesKeys offset).mpr member))
    have index : u32 s.inputs.length = s.inputs.length :=
      u32_of_lt (state.interned.length_lt absent (wf.fits offset member))
    have appended : assign s.symMap offset s.inputs.length = s.symMap ++ [(offset, s.inputs.length)] := by
      simp only [assign, found]
    refine ⟨_, _, internOffset_new (by rwa [key]) (by rwa [key]) (by rwa [key]), ?_, ?_⟩
    · simp [key, index]
    rw [key, index, appended]
    refine ⟨state.interned.push absent (wf.fits offset member) byte,
      state.grows.trans (List.prefix_append _ _), ?_, fun entry inInputs => ?_, fun k => ?_,
      fun g other located => ?_, fun g past => state.cmapPast g (by simp at past; omega),
      state.length, fun entry inSeen => ?_, state.untouched⟩
    · rw [List.map_append, state.order, firstSeen_append_singleton, if_neg unkept]; rfl
    · rcases List.mem_append.mp inInputs with old | new
      · exact state.bytes entry old
      · rw [List.mem_singleton.mp new]
        exact firstEntry_new unseen member read
    · rw [lookup_assign]
      by_cases same : k = offset
      · rw [if_pos same, same, if_pos (by simp)]
        exact (firstEntry_new unseen member shaped).symm
      · rw [if_neg same, state.shapes k]
        simp only [List.map_append, List.mem_append, List.map_singleton, List.mem_singleton, same,
          or_false]
    · obtain ⟨entry, found, rfl⟩ := Option.map_eq_some'.mp located
      rcases getElem?_snoc_eq_some.mp found with ⟨_, old⟩ | ⟨rfl, rfl⟩
      · exact state.cmap g _ (by rw [old]; rfl)
      · rw [state.cmapPast _ le_rfl, readers_of_unseen unseen]
        simp [fresh]
    · obtain ⟨g, slotted, located⟩ := state.written entry inSeen
      exact ⟨g, slotted, getElem?_fst_of_extension (List.prefix_append _ _) located⟩

theorem countsInCmap_iff (comparison : Kind) :
    countsInCmap comparison = true ↔ comparison ≠ .memcmp ∧ comparison ≠ .memcmpN := by
  simp [countsInCmap]

theorem Interned.index_eq_iff {symMap inputs : List (Nat × Nat)} (interned : Interned symMap inputs)
    {g g' offset other : Nat} (located : (inputs[g]?).map Prod.fst = some offset)
    (found : (inputs[g']?).map Prod.fst = some other) : g' = g ↔ other = offset := by
  have indexed := (interned.index offset g).mpr located
  have indexed' := (interned.index other g').mpr found
  constructor
  · rintro rfl
    rw [located] at found
    exact (Option.some.inj found).symm
  · rintro rfl
    rw [indexed] at indexed'
    exact (Option.some.inj indexed').symm

theorem OffsetsDone.record (state : OffsetsDone comparisons done c comparison base keys seen s)
    {offset lidx g : Nat} (located : (s.inputs[g]?).map Prod.fst = some offset)
    (fresh : offset ∉ seen.map Prod.fst) (slotFresh : ∀ entry ∈ seen, entry.2 ≠ lidx)
    (slot : c.inputArgs[lidx]? = some (true, 0)) :
    ∃ s', recordOffset done.length comparison offset lidx (g, s) = .ok s' ∧
      OffsetsDone comparisons done c comparison base keys (seen ++ [(offset, lidx)]) s' := by
  have current : s.inputArgs[lidx]? = some (true, 0) := (state.untouched lidx slotFresh).trans slot
  have below : lidx < s.inputArgs.length := (List.getElem?_eq_some_iff.mp current).1
  have inRange : g < s.inputs.length := by
    by_contra outside
    rw [List.getElem?_eq_none (Nat.le_of_not_lt outside)] at located
    cases located
  refine ⟨_, recordOffset_ok current, state.interned, state.grows, state.order, state.bytes, state.shapes,
    fun g' other found => ?_, fun g' past => ?_, by simp [state.length],
    fun entry member => ?_, fun slot' untouched => ?_⟩
  · have same := state.interned.index_eq_iff located found
    dsimp only at found ⊢
    by_cases counted : comparison ≠ .memcmp ∧ comparison ≠ .memcmpN
    · rw [if_pos counted, lookup_pushAt]
      by_cases hit : g' = g
      · rw [if_pos hit, ← hit, state.cmap g' other found, same.mp hit]
        simp [(countsInCmap_iff comparison).mpr counted, fresh]
      · have listed : other ∈ (seen ++ [(offset, lidx)]).map Prod.fst ↔ other ∈ seen.map Prod.fst := by
          rw [List.map_append, List.mem_append, List.map_singleton, List.mem_singleton,
            or_iff_left fun equal => hit (same.mpr equal)]
        rw [if_neg hit, state.cmap g' other found]
        simp only [listed]
    · have uncounted : countsInCmap comparison = false :=
        Bool.eq_false_iff.mpr fun counts => counted ((countsInCmap_iff comparison).mp counts)
      rw [if_neg counted, state.cmap g' other found]
      simp [uncounted]
  · dsimp only at past ⊢
    split
    · rw [lookup_pushAt, if_neg (by omega)]
      exact state.cmapPast g' past
    · exact state.cmapPast g' past
  · rcases List.mem_append.mp member with old | new
    · obtain ⟨g', slotted, found⟩ := state.written entry old
      exact ⟨g', by rw [List.getElem?_set_ne (slotFresh entry old).symm]; exact slotted, found⟩
    · rw [List.mem_singleton.mp new]
      exact ⟨g, List.getElem?_set_self below, located⟩
  · have other : lidx ≠ slot' := untouched (offset, lidx) (List.mem_append_right _ (List.mem_singleton_self _))
    rw [List.getElem?_set_ne other]
    exact state.untouched slot' fun entry member => untouched entry (List.mem_append_left _ member)

theorem OffsetsDone.step (wf : c.ArgMapWf)
    (state : OffsetsDone comparisons done c comparison base
      (done.flatMap Constraint.sortedOffsets ++ seen.map Prod.fst) seen s)
    {offset lidx : Nat} (entry : (offset, lidx) ∈ c.localMap) (fresh : offset ∉ seen.map Prod.fst)
    (slotFresh : ∀ other ∈ seen, other.2 ≠ lidx) :
    ∃ s', finalizeOffset c done.length comparison s (offset, lidx) = .ok s' ∧
      OffsetsDone comparisons done c comparison base
        (done.flatMap Constraint.sortedOffsets ++ (seen ++ [(offset, lidx)]).map Prod.fst)
        (seen ++ [(offset, lidx)]) s' := by
  obtain ⟨g, s1, interned, located, state1⟩ :=
    state.intern wf rfl (List.mem_map.mpr ⟨_, entry, rfl⟩) fresh
  obtain ⟨s', recorded, state'⟩ := state1.record located fresh slotFresh (wf.mapped _ entry)
  refine ⟨s', by rw [finalizeOffset_eq, interned]; exact recorded, ?_⟩
  rwa [List.map_append, List.map_singleton, ← List.append_assoc]

theorem OffsetsDone.metaFor (wf : c.ArgMapWf) {i : Nat} (compared : comparisons[i]? = some comparison)
    (state : OffsetsDone comparisons done c comparison base keys (byOffset c.localMap) s)
    (runs : List (Nat × Nat)) : MetaFor comparisons s.inputs i c ⟨s.inputArgs, comparison, runs⟩ := by
  refine ⟨compared, state.length, fun offset slot member =>
    state.written (offset, slot) ((List.mergeSort_perm _ _).mem_iff.mpr member), fun slot value constant => ?_⟩
  rw [state.untouched slot fun entry member same => ?_]
  · exact constant
  · have mapped := wf.mapped entry ((List.mergeSort_perm _ _).mem_iff.mp member)
    rw [same, constant] at mapped
    cases mapped

end OffsetLoop

/-! ## The constraint loop -/

/-- The state of `finalize` after its loop has processed the constraints
`done`, of a task with the comparisons `comparisons`. -/
structure Aggregated (comparisons : List Kind) (done : List Constraint) (task : SearchTask)
    (symMap : List (Nat × Nat)) : Prop where
  compared : task.comparisons = comparisons
  interned : Interned symMap task.inputs
  order : task.inputs.map Prod.fst = firstSeen (done.flatMap Constraint.sortedOffsets)
  bytes : ∀ entry ∈ task.inputs, firstByte done entry.1 = some entry.2
  shapes : ∀ offset, task.shapes.lookup offset = firstShape done offset
  cmap : ∀ g offset, (task.inputs[g]?).map Prod.fst = some offset →
    (task.cmap.lookup g).getD [] = readers comparisons done offset
  cmapPast : ∀ g, task.inputs.length ≤ g → (task.cmap.lookup g).getD [] = []
  counted : task.consmeta.length = done.length
  metas : ∀ i c, done[i]? = some c →
    ∃ meta, task.consmeta[i]? = some meta ∧ MetaFor comparisons task.inputs i c meta
  maxConstNum : task.maxConstNum = (done.map Constraint.constNum).foldl max 0

theorem Aggregated.mem_inputs_iff {comparisons : List Kind} {done : List Constraint} {task : SearchTask}
    {symMap : List (Nat × Nat)} (aggregated : Aggregated comparisons done task symMap) {offset : Nat} :
    offset ∈ task.inputs.map Prod.fst ↔ ∃ c ∈ done, offset ∈ c.offsets := by
  rw [aggregated.order]
  exact mem_firstSeen_flatMap

theorem byOffset_distinct {c : Constraint} (wf : c.ArgMapWf) :
    ((byOffset c.localMap).map Prod.fst).Nodup ∧ ((byOffset c.localMap).map Prod.snd).Nodup :=
  ⟨((List.mergeSort_perm _ _).map Prod.fst).nodup_iff.mpr wf.keys,
    ((List.mergeSort_perm _ _).map Prod.snd).nodup_iff.mpr wf.injective⟩

theorem Aggregated.offsets {comparisons : List Kind} {done : List Constraint} {task : SearchTask}
    {symMap : List (Nat × Nat)} (aggregated : Aggregated comparisons done task symMap) {c : Constraint}
    (wf : c.ArgMapWf) (comparison : Kind) :
    ∃ s, (byOffset c.localMap).foldlM (finalizeOffset c done.length comparison)
        ⟨symMap, task.inputs, task.shapes, task.cmap, c.inputArgs, [], 2 ^ 32 - 1, 0⟩ = .ok s ∧
      OffsetsDone comparisons done c comparison task.inputs
        (done.flatMap Constraint.sortedOffsets ++ c.sortedOffsets) (byOffset c.localMap) s := by
  obtain ⟨distinctKeys, distinctSlots⟩ := byOffset_distinct wf
  refine foldlM_total (byOffset c.localMap) (fun seen s => OffsetsDone comparisons done c comparison
    task.inputs (done.flatMap Constraint.sortedOffsets ++ seen.map Prod.fst) seen s)
    (fun seen entry remaining s split state => ?_) _ ?_
  · obtain ⟨offset, lidx⟩ := entry
    rw [split, List.map_append, List.map_cons] at distinctKeys distinctSlots
    exact state.step wf ((List.mergeSort_perm _ _).mem_iff.mp (split ▸ List.mem_append_right _
      (List.mem_cons_self _ _)))
      (fun member => List.disjoint_of_nodup_append distinctKeys member (List.mem_cons_self _ _))
      fun other member same => List.disjoint_of_nodup_append distinctSlots
        (List.mem_map.mpr ⟨other, member, rfl⟩) (same ▸ List.mem_cons_self _ _)
  · refine ⟨aggregated.interned, List.prefix_refl _, by rw [List.map_nil, List.append_nil]; exact aggregated.order,
      fun entry member => firstEntry_append (aggregated.bytes entry member) _, fun offset => ?_,
      fun g offset located => by rw [aggregated.cmap g offset located]; simp,
      aggregated.cmapPast, rfl, nofun, fun _ _ => rfl⟩
    rw [aggregated.shapes offset]
    by_cases held : offset ∈ task.inputs.map Prod.fst
    · rw [if_pos held, firstShape, firstShape, firstEntry_append_of_held (aggregated.mem_inputs_iff.mp held)]
    · rw [if_neg held]
      exact firstEntry_of_unheld fun d member holds => held (aggregated.mem_inputs_iff.mpr ⟨d, member, holds⟩)

theorem ite_lt_eq_max (a b : Nat) : (if a < b then b else a) = max a b := by
  split <;> omega

/-- One iteration of the constraint loop, on a constraint with the
argument-map invariant and a comparison, succeeds and aggregates it. -/
theorem Aggregated.step {comparisons : List Kind} {done : List Constraint} {task : SearchTask}
    {symMap : List (Nat × Nat)} (aggregated : Aggregated comparisons done task symMap) {c : Constraint}
    (wf : c.ArgMapWf) {comparison : Kind} (compared : comparisons[done.length]? = some comparison) :
    ∃ task' symMap', finalizeConstraint task symMap done.length c = .ok (task', symMap') ∧
      task'.constraints = task.constraints ∧ Aggregated comparisons (done ++ [c]) task' symMap' := by
  obtain ⟨s, ran, state⟩ := aggregated.offsets wf comparison
  have order : s.inputs.map Prod.fst = firstSeen ((done ++ [c]).flatMap Constraint.sortedOffsets) := by
    rw [state.order, List.flatMap_append, List.flatMap_singleton]
  have picked : task.comparisons.get? done.length = some comparison := by
    rw [List.get?_eq_getElem?, aggregated.compared, compared]
  refine ⟨{ task with
      consmeta := task.consmeta ++
        [⟨s.inputArgs, comparison, s.i2sCandidates ++ [(u32Sub (s.lastOffset + 1) s.size, s.size)]⟩]
      inputs := s.inputs
      shapes := s.shapes
      cmap := s.cmap
      atoiInfo := c.atoiInfo.foldl (fun map entry => assign map entry.1 entry.2) task.atoiInfo
      maxConstNum := if task.maxConstNum < c.constNum then c.constNum else task.maxConstNum },
    s.symMap, by rw [finalizeConstraint, picked]; simp only [ran]; rfl, rfl, aggregated.compared,
    state.interned, order, fun entry member => state.bytes entry member, fun offset => ?_,
    fun g offset located => ?_,
    state.cmapPast, by simp [aggregated.counted], fun i d picked => ?_, ?_⟩
  · rw [state.shapes offset]
    by_cases held : offset ∈ s.inputs.map Prod.fst
    · rw [if_pos held]
    · rw [if_neg held]
      exact (firstEntry_of_unheld fun d member holds =>
        held (order ▸ mem_firstSeen_flatMap.mpr ⟨d, member, holds⟩)).symm
  · have listed : offset ∈ (byOffset c.localMap).map Prod.fst ↔ offset ∈ c.offsets :=
      c.sortedOffsets_perm.mem_iff
    rw [state.cmap g offset located, readers_append_singleton comparisons done c compared]
    simp only [listed]
  · rcases getElem?_snoc_eq_some.mp picked with ⟨early, picked⟩ | ⟨rfl, rfl⟩
    · obtain ⟨meta, located, holds⟩ := aggregated.metas i d picked
      refine ⟨meta, ?_, holds.mono state.grows⟩
      rw [List.getElem?_append_left (by rw [aggregated.counted]; exact early)]
      exact located
    · exact ⟨_, by rw [← aggregated.counted, List.getElem?_concat_length], state.metaFor wf compared _⟩
  · rw [List.map_append, List.map_singleton, List.foldl_append, List.foldl_cons, List.foldl_nil,
      ← aggregated.maxConstNum]
    exact ite_lt_eq_max _ _

theorem Aggregated.empty (comparisons : List Kind) (cs : List Constraint) :
    Aggregated comparisons [] { SearchTask.empty with constraints := cs, comparisons } [] :=
  ⟨rfl, Interned.empty, rfl, nofun, fun _ => rfl, nofun, fun _ _ => rfl, rfl, nofun, rfl⟩

/-- The constraint loop over the constraints after `done` succeeds and
aggregates all of them. -/
theorem Aggregated.constraintLoop {comparisons : List Kind} {cs : List Constraint}
    (lengths : comparisons.length = cs.length) (wf : ∀ c ∈ cs, c.ArgMapWf) :
    ∀ (rest done : List Constraint) (task : SearchTask) (symMap : List (Nat × Nat)),
      done ++ rest = cs → Aggregated comparisons done task symMap →
      ∃ task' symMap', finalizeFrom symMap done.length rest task = .ok task' ∧
        task'.constraints = task.constraints ∧ Aggregated comparisons cs task' symMap' := by
  intro rest
  induction rest with
  | nil => intro done task symMap split aggregated; exact ⟨task, symMap, rfl, rfl, by simpa [← split]⟩
  | cons c rest ih =>
    intro done task symMap split aggregated
    have below : done.length < comparisons.length := by
      rw [lengths, ← split, List.length_append, List.length_cons]; omega
    obtain ⟨task1, symMap1, stepped, same1, aggregated1⟩ :=
      aggregated.step (wf c (split ▸ List.mem_append_right _ (List.mem_cons_self _ _)))
        (List.getElem?_eq_getElem below)
    obtain ⟨task', symMap', ran, same', done'⟩ :=
      ih (done ++ [c]) task1 symMap1 (by rw [List.append_assoc, List.singleton_append, split]) aggregated1
    refine ⟨task', symMap', ?_, same'.trans same1, done'⟩
    rw [finalizeFrom, stepped]
    rw [List.length_append, List.length_singleton] at ran
    exact ran

/-- `finalize` of a fresh task whose constraints have the argument-map
invariant, with one comparison each, returns with all of them aggregated. -/
theorem finalize_total {cs : List Constraint} {comparisons : List Kind}
    (lengths : comparisons.length = cs.length) (wf : ∀ c ∈ cs, c.ArgMapWf) :
    ∃ task symMap, { SearchTask.empty with constraints := cs, comparisons }.finalize = .ok task ∧
      Aggregated comparisons cs task symMap ∧ task.minDistances = List.replicate cs.length 0 ∧
      task.distances = List.replicate cs.length 0 ∧ task.plusDistances = List.replicate cs.length 0 ∧
      task.minusDistances = List.replicate cs.length 0 := by
  obtain ⟨looped, symMap, ran, same, aggregated⟩ :=
    Aggregated.constraintLoop lengths wf cs [] _ [] rfl (Aggregated.empty comparisons cs)
  have ran' : finalizeFrom [] 0 cs { SearchTask.empty with constraints := cs, comparisons } =
      .ok looped := ran
  refine ⟨{ looped with
      scratchArgs := 2 + looped.inputs.length + looped.maxConstNum + 1
      minDistances := List.replicate looped.constraints.length 0
      distances := List.replicate looped.constraints.length 0
      plusDistances := List.replicate looped.constraints.length 0
      minusDistances := List.replicate looped.constraints.length 0 }, symMap,
    by simp only [SearchTask.finalize, ran']; rfl, ⟨aggregated.compared, aggregated.interned,
    aggregated.order, aggregated.bytes, aggregated.shapes, aggregated.cmap, aggregated.cmapPast, aggregated.counted,
    aggregated.metas, aggregated.maxConstNum⟩, ?_, ?_, ?_, ?_⟩ <;> simp [same]

/-- Offsets 0, 1 and 3 in slots 0, 1 and 3 and the constant 9 in slot 2, as
lifting `in[0] + in[1] == 9 - in[3]` leaves them. -/
def gappedConstraint : Constraint :=
  { Constraint.empty with
    localMap := [(0, 0), (1, 1), (3, 3)]
    inputArgs := [(true, 0), (true, 0), (false, 9), (true, 0)]
    inputs := [(0, 5), (1, 6), (3, 7)]
    shapes := [(0, 1), (1, 1), (3, 1)]
    constNum := 1 }

theorem gappedConstraint_argMapWf : gappedConstraint.ArgMapWf where
  count := rfl
  keys := by decide
  injective := by decide
  mapped := by decide
  symbolic slot value found := by
    match slot, found with
    | 0, _ => exact ⟨0, by decide⟩
    | 1, _ => exact ⟨1, by decide⟩
    | 3, _ => exact ⟨3, by decide⟩
    | 2, found => cases found
    | _ + 4, found => cases found
  inputsKeys _ := Iff.rfl
  shapesKeys _ := Iff.rfl
  fits := by decide

theorem gappedConstraint_wf : ∀ c ∈ [gappedConstraint], c.ArgMapWf :=
  fun _ member => List.eq_of_mem_singleton member ▸ gappedConstraint_argMapWf

/-- Offsets 1 and 2 in slots 0 and 1 with the bytes 8 and 9, as lifting a
two-byte load from offset 1 leaves them. -/
def loadConstraint : Constraint :=
  { Constraint.empty with
    localMap := [(1, 0), (2, 1)]
    inputArgs := [(true, 0), (true, 0)]
    inputs := [(1, 8), (2, 9)]
    shapes := [(1, 2), (2, 0)] }

theorem loadConstraint_argMapWf : loadConstraint.ArgMapWf where
  count := rfl
  keys := by decide
  injective := by decide
  mapped := by decide
  symbolic slot value found := by
    match slot, found with
    | 0, _ => exact ⟨1, by decide⟩
    | 1, _ => exact ⟨2, by decide⟩
    | _ + 2, found => cases found
  inputsKeys _ := Iff.rfl
  shapesKeys _ := Iff.rfl
  fits := by decide

theorem gappedLoad_wf : ∀ c ∈ [gappedConstraint, loadConstraint], c.ArgMapWf :=
  List.forall_mem_cons.mpr ⟨gappedConstraint_argMapWf,
    List.forall_mem_cons.mpr ⟨loadConstraint_argMapWf, List.forall_mem_nil _⟩⟩

/-- `SearchTask::finalize` on a fresh task whose constraints have the lifter's
argument-map invariant, with one comparison each, returns. `inputs` lists each
offset of any constraint exactly once, in order of first occurrence (by
constraint, then ascending offset), with the byte of the first constraint that
holds it; `consmeta` holds, per constraint, its comparison and its slots with
each mapped offset's slot rewritten to `(true, g)`, `inputs[g]` being that
offset, and each constant kept; `cmap` lists, for each global byte, the
constraints that are not memcmp and read it, ascending; `max_const_num` is the
largest `const_num`; and the four distance vectors have one entry per
constraint. -/
theorem finalize_aggregates (cs : List Constraint) (comparisons : List Kind)
    (lengths : comparisons.length = cs.length) (wf : ∀ c ∈ cs, c.ArgMapWf) :
    ∃ task, { SearchTask.empty with constraints := cs, comparisons }.finalize = .ok task ∧
      task.inputs.map Prod.fst = firstSeen (cs.flatMap Constraint.sortedOffsets) ∧
      (task.inputs.map Prod.fst).Nodup ∧
      (∀ offset, offset ∈ task.inputs.map Prod.fst ↔ ∃ c ∈ cs, offset ∈ c.offsets) ∧
      (∀ entry ∈ task.inputs, firstByte cs entry.1 = some entry.2) ∧
      task.consmeta.length = cs.length ∧
      (∀ i c, cs[i]? = some c →
        ∃ meta, task.consmeta[i]? = some meta ∧ MetaFor comparisons task.inputs i c meta) ∧
      (∀ g offset, (task.inputs[g]?).map Prod.fst = some offset →
        (task.cmap.lookup g).getD [] = readers comparisons cs offset) ∧
      task.maxConstNum = (cs.map Constraint.constNum).foldl max 0 ∧
      task.minDistances = List.replicate cs.length 0 ∧ task.distances = List.replicate cs.length 0 ∧
      task.plusDistances = List.replicate cs.length 0 ∧
      task.minusDistances = List.replicate cs.length 0 := by
  obtain ⟨task, _, finalized, aggregated, distances⟩ := finalize_total lengths wf
  exact ⟨task, finalized, aggregated.order, aggregated.order ▸ nodup_firstSeen _,
    fun _ => aggregated.mem_inputs_iff, aggregated.bytes, aggregated.counted, aggregated.metas,
    aggregated.cmap, aggregated.maxConstNum, distances⟩

/-- Finalizing the gapped constraint with a memcmp over the load, which shares
its offset 1: offset 1 is interned once, where the gapped constraint first holds
it and with its byte 6, and `cmap` leaves the memcmp out of offset 1's list. -/
theorem gappedLoad_aggregates :
    ∃ task, { SearchTask.empty with
        constraints := [gappedConstraint, loadConstraint], comparisons := [.equal, .memcmp] }.finalize = .ok task ∧
      task.inputs.map Prod.fst = [0, 1, 3, 2] ∧ (∀ entry ∈ task.inputs, entry.1 = 1 → entry.2 = 6) ∧
      (task.cmap.lookup 1).getD [] = [0] ∧ task.maxConstNum = 1 := by
  obtain ⟨task, finalized, order, -, -, bytes, -, -, cmap, maxConstNum, -⟩ :=
    finalize_aggregates [gappedConstraint, loadConstraint] [.equal, .memcmp] rfl gappedLoad_wf
  have offsets : task.inputs.map Prod.fst = [0, 1, 3, 2] := by
    rw [order, List.flatMap_cons, List.flatMap_singleton, gappedConstraint.sortedOffsets_of_sorted (by decide),
      loadConstraint.sortedOffsets_of_sorted (by decide)]
    rfl
  refine ⟨task, finalized, offsets, fun entry member shared => ?_, ?_, maxConstNum⟩
  · have first := bytes entry member
    rw [shared] at first
    exact Option.some.inj (first.symm.trans (show firstByte _ 1 = some 6 from rfl))
  · rw [cmap 1 1 (by rw [← List.getElem?_map, offsets]; rfl)]
    rfl

/-! ## The run candidates of each constraint -/

/-- The run candidates `finalize` records for a constraint. -/
def i2sOf (c : Constraint) : List (Nat × Nat) :=
  closeRuns (c.sortedOffsets.foldl runStep ([], 2 ^ 32 - 1, 0))

theorem finalizeConstraint_i2s {task task' : SearchTask} {symMap symMap' : List (Nat × Nat)} {i : Nat}
    {c : Constraint} (done : finalizeConstraint task symMap i c = .ok (task', symMap')) :
    task'.constraints = task.constraints ∧
      ∃ meta : ConsMeta, task'.consmeta = task.consmeta ++ [meta] ∧ meta.i2sCandidates = i2sOf c := by
  unfold finalizeConstraint at done
  split at done
  · obtain ⟨s, ran, finished⟩ := except_bind_ok done
    cases finished
    refine ⟨rfl, _, rfl, ?_⟩
    have run := foldlM_project OffsetLoop.run (fun run entry => runStep run entry.1)
      (fun _ _ _ step => finalizeOffset_run step) _ _ _ ran
    rw [i2sOf, Constraint.sortedOffsets, List.foldl_map]
    exact congrArg closeRuns run
  · cases done

theorem finalizeFrom_i2s : ∀ (cs : List Constraint) (symMap : List (Nat × Nat)) (i : Nat)
    (task task' : SearchTask), finalizeFrom symMap i cs task = .ok task' →
      task'.constraints = task.constraints ∧ ∃ metas : List ConsMeta,
        task'.consmeta = task.consmeta ++ metas ∧ metas.map ConsMeta.i2sCandidates = cs.map i2sOf := by
  intro cs
  induction cs with
  | nil => intro _ _ task task' done; cases done; exact ⟨rfl, [], by simp, rfl⟩
  | cons c rest ih =>
    intro symMap i task task' done
    obtain ⟨⟨task1, symMap1⟩, first, later⟩ := except_bind_ok done
    obtain ⟨same, meta, pushed, runs⟩ := finalizeConstraint_i2s first
    obtain ⟨same', metas, appended, runs'⟩ := ih symMap1 (i + 1) task1 task' later
    refine ⟨same'.trans same, meta :: metas, by rw [appended, pushed, List.append_assoc]; rfl, ?_⟩
    rw [List.map_cons, List.map_cons, runs, runs']

/-- The run candidates `finalize` records for a constraint with distinct
offsets, none of them the sentinel `2 ^ 32 - 1`, are the maximal runs of
consecutive offsets of its `local_map`, ascending and pairwise disjoint. -/
theorem finalize_maximalRuns {task task' : SearchTask} (finalized : task.finalize = .ok task')
    {i : Nat} {c : Constraint} (picked : task.constraints[i]? = some c) (distinct : c.offsets.Nodup)
    (nonempty : c.localMap ≠ []) (fits : ∀ offset ∈ c.offsets, offset < 2 ^ 32 - 1) :
    ∃ meta, task'.consmeta[task.consmeta.length + i]? = some meta ∧
      MaximalRuns c.offsets meta.i2sCandidates ∧
      meta.i2sCandidates.Pairwise fun run next => run.1 + run.2 < next.1 := by
  obtain ⟨looped, ran, finished⟩ := except_bind_ok finalized
  cases finished
  obtain ⟨_, metas, appended, runs⟩ := finalizeFrom_i2s _ _ _ _ _ ran
  have found : (metas.map ConsMeta.i2sCandidates)[i]? = some (i2sOf c) := by
    rw [runs, List.getElem?_map, picked]; rfl
  rw [List.getElem?_map] at found
  obtain ⟨meta, located, same⟩ := Option.map_eq_some'.mp found
  have keys : c.sortedOffsets ≠ [] := fun empty => by
    have lengths := c.sortedOffsets_perm.length_eq
    rw [empty, Constraint.offsets, List.length_map] at lengths
    exact nonempty (List.eq_nil_of_length_eq_zero lengths.symm)
  have maximal : MaximalRuns c.offsets (i2sOf c) :=
    (closeRuns_maximal (c.sortedOffsets_ascending distinct) keys
      fun offset member => fits offset (c.sortedOffsets_perm.mem_iff.mp member)).of_perm
      c.sortedOffsets_perm
  refine ⟨meta, ?_, same ▸ maximal, same ▸ separated_pairwise maximal.separated⟩
  rw [appended, List.getElem?_append_right (Nat.le_add_right _ _), Nat.add_sub_cancel_left]
  exact located

/-- The gapped constraint's offsets split into maximal runs. -/
theorem gappedConstraint_maximalRuns :
    ∃ task, { SearchTask.empty with constraints := [gappedConstraint], comparisons := [.equal] }.finalize =
      .ok task ∧ ∃ meta, task.consmeta[0]? = some meta ∧ MaximalRuns [0, 1, 3] meta.i2sCandidates := by
  obtain ⟨task, _, finalized, -⟩ := @finalize_total [gappedConstraint] [.equal] rfl gappedConstraint_wf
  obtain ⟨meta, located, maximal, -⟩ :=
    @finalize_maximalRuns _ _ finalized 0 gappedConstraint rfl (by decide) (by decide) (by decide)
  exact ⟨task, finalized, meta, located, maximal⟩

end Symsan
