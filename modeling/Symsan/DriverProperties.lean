import Symsan.Driver

/-!
# The solving schedule

Over any interleaving of the three callbacks, with at least one solver, every
solver of at least one stage, and every `solve` answering SAT, UNSAT or
TIMEOUT, the solve calls `afl_custom_fuzz` makes stay in range and walk each
task through the (solver index, stage) pairs in order (`run_schedule`). The
invariant `Tracks` ties the mutator state to the last solve call of the trace.

`afl_custom_fuzz` holds the current solver by reference, so moving to the next
solver overwrites the current slot of `solvers` (`run_overwrites_solver`).
-/

set_option autoImplicit false

namespace Symsan

variable {Task Solver : Type}

/-! ## Traces -/

/-- The solve call an observation records, if any. -/
def Observation.solveCall : Observation Task Solver → Option (SolveCall Task Solver)
  | .fuzzed call => call.solve
  | _ => none

/-- The last solve call of a trace. -/
def lastSolve (trace : List (Observation Task Solver)) : Option (SolveCall Task Solver) :=
  (trace.filterMap Observation.solveCall).getLast?

/-- The observations after the last solve call of a trace. -/
def sinceLastSolve (trace : List (Observation Task Solver)) : List (Observation Task Solver) :=
  (trace.reverse.takeWhile fun o => o.solveCall.isNone).reverse

theorem lastSolve_append (trace : List (Observation Task Solver)) (o : Observation Task Solver) :
    lastSolve (trace ++ [o]) = o.solveCall.or (lastSolve trace) := by
  cases solved : o.solveCall <;> simp [lastSolve, List.filterMap_append, solved]

theorem sinceLastSolve_append (trace : List (Observation Task Solver)) (o : Observation Task Solver) :
    sinceLastSolve (trace ++ [o]) = if o.solveCall.isNone then sinceLastSolve trace ++ [o] else [] := by
  cases solved : o.solveCall <;> simp [sinceLastSolve, solved]

theorem lastSolve_quiet (trace : List (Observation Task Solver)) {o : Observation Task Solver}
    (quiet : o.solveCall = none) : lastSolve (trace ++ [o]) = lastSolve trace := by
  rw [lastSolve_append, quiet, Option.none_or]

theorem sinceLastSolve_quiet (trace : List (Observation Task Solver)) {o : Observation Task Solver}
    (quiet : o.solveCall = none) : sinceLastSolve (trace ++ [o]) = sinceLastSolve trace ++ [o] := by
  rw [sinceLastSolve_append, quiet, Option.isNone_none, if_pos rfl]

/-! ## Paths through `afl_custom_fuzz` -/

section Paths

variable (stages : Solver → Nat) (result : SolverResult) (m : Mutator Task Solver)

theorem aflCustomFuzz_idle (taking : m.curTask.isNone ∨ m.curMutationState = .validated)
    (empty : m.queue = []) :
    aflCustomFuzz stages result m = .ok ({ m with curTask := none }, ⟨none, none, .input⟩) := by
  simp [aflCustomFuzz, if_pos taking, empty]

theorem aflCustomFuzz_take {task : Task} {rest : List Task}
    (taking : m.curTask.isNone ∨ m.curMutationState = .validated) (queued : m.queue = task :: rest) :
    aflCustomFuzz stages result m = fuzzCurrent stages result { m with
      queue := rest
      curTask := some task
      curSolverIndex := 0
      curSolverStage := 0
      curMutationState := .invalid } (some task) := by
  simp [aflCustomFuzz, if_pos taking, queued]

theorem aflCustomFuzz_keep {task : Task} (current : m.curTask = some task)
    (notKept : m.curMutationState ≠ .validated) :
    aflCustomFuzz stages result m = fuzzCurrent stages result m none := by
  simp [aflCustomFuzz, current, notKept]

@[simp] theorem Mutator.bumped_solvers : m.bumped.solvers = m.solvers := by
  unfold Mutator.bumped; split <;> rfl

@[simp] theorem Mutator.bumped_queue : m.bumped.queue = m.queue := by
  unfold Mutator.bumped; split <;> rfl

@[simp] theorem Mutator.bumped_curTask : m.bumped.curTask = m.curTask := by
  unfold Mutator.bumped; split <;> rfl

@[simp] theorem Mutator.bumped_curSolverIndex : m.bumped.curSolverIndex = m.curSolverIndex := by
  unfold Mutator.bumped; split <;> rfl

variable (dequeued : Option Task) {solver : Solver}
  (located : m.solvers.get? m.curSolverIndex = some solver)

include located

theorem fuzzCurrent_stay (within : m.bumped.curSolverStage < stages solver) :
    fuzzCurrent stages result m dequeued = .ok (solveWith solver m.bumped dequeued result) := by
  have notPast : ¬(stages solver : Int) ≤ m.bumped.curSolverStage := by omega
  simp only [fuzzCurrent, Mutator.bumped_solvers, Mutator.bumped_curSolverIndex, located, notPast,
    if_false]

theorem fuzzCurrent_nextSolver {next : Solver} (past : stages solver ≤ m.bumped.curSolverStage)
    (more : m.curSolverIndex + 1 < m.solvers.length)
    (following : m.solvers.get? (m.curSolverIndex + 1) = some next) :
    fuzzCurrent stages result m dequeued = .ok (solveWith next
      { ({ m.bumped with curSolverIndex := m.curSolverIndex + 1 } : Mutator Task Solver) with
        solvers := m.solvers.set m.curSolverIndex next, curSolverStage := 0 } dequeued result) := by
  have notLast : ¬m.solvers.length ≤ m.curSolverIndex + 1 := by omega
  simp only [fuzzCurrent, Mutator.bumped_solvers, Mutator.bumped_curSolverIndex, located,
    if_pos past, if_neg notLast, following]

theorem fuzzCurrent_nextTask {next : Solver} {task : Task} {rest : List Task}
    (past : stages solver ≤ m.bumped.curSolverStage) (last : m.solvers.length ≤ m.curSolverIndex + 1)
    (queued : m.queue = task :: rest) (first : m.solvers.get? 0 = some next) :
    fuzzCurrent stages result m dequeued = .ok (solveWith next
      { ({ m.bumped with queue := rest, curTask := some task, curSolverIndex := 0 } :
          Mutator Task Solver) with
        solvers := m.solvers.set m.curSolverIndex next, curSolverStage := 0 } (some task) result) := by
  simp only [fuzzCurrent, Mutator.bumped_solvers, Mutator.bumped_curSolverIndex,
    Mutator.bumped_queue, located, if_pos past, if_pos last, queued, first]

theorem fuzzCurrent_exhausted (past : stages solver ≤ m.bumped.curSolverStage)
    (last : m.solvers.length ≤ m.curSolverIndex + 1) (empty : m.queue = []) :
    fuzzCurrent stages result m dequeued =
      .ok ({ m.bumped with curSolverIndex := m.curSolverIndex + 1, curTask := none },
        ⟨dequeued, none, .input⟩) := by
  simp only [fuzzCurrent, Mutator.bumped_solvers, Mutator.bumped_curSolverIndex,
    Mutator.bumped_queue, located, if_pos past, if_pos last, empty]

end Paths

/-! ## The schedule -/

section Schedule

variable (stages : Solver → Nat) (n : Nat)

/-- The pair that follows a solve call on the same task: the next stage of its
solver, or the first stage of the next solver. -/
def nextPair (call : SolveCall Task Solver) : Nat × Int :=
  if call.stage + 1 < stages call.solver then (call.index, call.stage + 1) else (call.index + 1, 0)

/-- Why the task of the solve call `call` is no longer current after the
observations `since`: the call answered UNSAT, it answered SAT and the host kept
the mutation, a tracer run reset the task, or it was the last stage of the
last of the `n` solvers. -/
def LeftFor (call : SolveCall Task Solver) (since : List (Observation Task Solver)) : Prop :=
  call.result = .unsat ∨ (call.result = .sat ∧ .newEntry true ∈ since) ∨ .counted true ∈ since ∨
    (call.index + 1 = n ∧ call.stage + 1 = stages call.solver)

/-- What an observation owes the schedule after the observations `pre`: a solve
call in range; a dequeued task solved at once from `(0, 0)`, the previous task
having been left for a reason; and otherwise the pair after the previous call,
on its task. -/
def ObservationOk (pre : List (Observation Task Solver)) : Observation Task Solver → Prop
  | .fuzzed f =>
    (∀ s, f.solve = some s → s.index < n ∧ 0 ≤ s.stage ∧ s.stage < stages s.solver) ∧
    (∀ task, f.dequeued = some task →
      (∃ s, f.solve = some s ∧ s.task = some task ∧ s.index = 0 ∧ s.stage = 0) ∧
      ∀ s1, lastSolve pre = some s1 → LeftFor stages n s1 (sinceLastSolve pre)) ∧
    (∀ s, f.solve = some s → f.dequeued = none →
      ∃ s1, lastSolve pre = some s1 ∧ s.task = s1.task ∧ (s.index, s.stage) = nextPair stages s1)
  | _ => True

/-- Every observation of the trace meets `ObservationOk` after the ones before it. -/
def Schedule (trace : List (Observation Task Solver)) : Prop :=
  ∀ pre o post, trace = pre ++ o :: post → ObservationOk stages n pre o

theorem Schedule.nil : Schedule stages n ([] : List (Observation Task Solver)) := by
  intro pre o post split
  simp at split

theorem Schedule.append {trace : List (Observation Task Solver)} {o : Observation Task Solver}
    (scheduled : Schedule stages n trace) (next : ObservationOk stages n trace o) :
    Schedule stages n (trace ++ [o]) := by
  intro pre o' post split
  rcases List.eq_nil_or_concat post with rfl | ⟨post', last, rfl⟩
  · obtain ⟨rfl, same⟩ := List.append_inj' split rfl
    simp only [List.cons.injEq, and_true] at same
    exact same ▸ next
  · have regrouped : trace ++ [o] = (pre ++ o' :: post') ++ [last] := by simpa using split
    exact scheduled pre o' post' (List.append_inj' regrouped rfl).1

end Schedule

/-! ## The invariant -/

section Invariant

variable (stages : Solver → Nat) (n : Nat)

/-- How the state goes on from the solve call `call` on its task, after the
observations `since`: a SAT answer waits for the host at the same stage, a
TIMEOUT answer has moved to the next stage, and a SAT answer the host kept
has been validated. -/
def Pending (call : SolveCall Task Solver) (m : Mutator Task Solver)
    (since : List (Observation Task Solver)) : Prop :=
  (call.result = .sat ∧ m.curMutationState = .inValidation ∧ m.curSolverStage = call.stage) ∨
  (call.result = .timeout ∧ m.curMutationState = .invalid ∧ m.curSolverStage = call.stage + 1) ∨
  (call.result = .sat ∧ m.curMutationState = .validated ∧ .newEntry true ∈ since)

/-- The mutator state after the observations `trace`: `n` solvers of at least
one stage; a current task is the task of the last solve call, at that call's
solver, in range, with the state the call left; with no current task, the last
call's task was left for a reason. -/
structure Tracks (m : Mutator Task Solver) (trace : List (Observation Task Solver)) : Prop where
  length : m.solvers.length = n
  staged : ∀ s ∈ m.solvers, 0 < stages s
  current : ∀ task, m.curTask = some task → ∃ s1, lastSolve trace = some s1 ∧
    s1.task = some task ∧ s1.index = m.curSolverIndex ∧ m.solvers.get? s1.index = some s1.solver ∧
    s1.index < n ∧ 0 ≤ s1.stage ∧ s1.stage < stages s1.solver ∧ Pending s1 m (sinceLastSolve trace)
  idle : m.curTask = none → ∀ s1, lastSolve trace = some s1 →
    LeftFor stages n s1 (sinceLastSolve trace)

variable {stages n}

theorem LeftFor.mono {call : SolveCall Task Solver} {since : List (Observation Task Solver)}
    (left : LeftFor stages n call since) (o : Observation Task Solver) :
    LeftFor stages n call (since ++ [o]) :=
  left.imp_right (Or.imp (And.imp_right (List.mem_append_left _)) (Or.imp_left (List.mem_append_left _)))

theorem Pending.mono {call : SolveCall Task Solver} {m m' : Mutator Task Solver}
    {since : List (Observation Task Solver)} (pending : Pending call m since)
    (stage : m'.curSolverStage = m.curSolverStage)
    (state : m'.curMutationState = m.curMutationState) (o : Observation Task Solver) :
    Pending call m' (since ++ [o]) := by
  unfold Pending
  rw [stage, state]
  exact pending.imp_right (Or.imp_right (And.imp_right (And.imp_right (List.mem_append_left _))))

theorem Tracks.leaving {m : Mutator Task Solver} {trace : List (Observation Task Solver)}
    (tracks : Tracks stages n m trace) (taking : m.curTask.isNone ∨ m.curMutationState = .validated) :
    ∀ s1, lastSolve trace = some s1 → LeftFor stages n s1 (sinceLastSolve trace) := by
  cases current : m.curTask with
  | none => exact tracks.idle current
  | some task =>
    intro s1 found
    obtain ⟨s1', found', -, -, -, -, -, -, pending⟩ := tracks.current task current
    cases found.symm.trans found'
    have validated : m.curMutationState = .validated := by simpa [current] using taking
    rcases pending with ⟨-, state, -⟩ | ⟨-, state, -⟩ | ⟨sat, -, kept⟩ <;>
      first | (rw [validated] at state; cases state) | exact .inr (.inl ⟨sat, kept⟩)

theorem Tracks.idleAfter {m m' : Mutator Task Solver} {trace : List (Observation Task Solver)}
    {o : Observation Task Solver} (tracks : Tracks stages n m trace) (quiet : o.solveCall = none)
    (solvers : m'.solvers = m.solvers) (dropped : m'.curTask = none)
    (left : ∀ s1, lastSolve trace = some s1 → LeftFor stages n s1 (sinceLastSolve trace ++ [o])) :
    Tracks stages n m' (trace ++ [o]) := by
  refine ⟨solvers ▸ tracks.length, solvers ▸ tracks.staged, fun _ current => ?_, fun _ => ?_⟩
  · rw [dropped] at current; cases current
  · rw [sinceLastSolve_quiet trace quiet, lastSolve_quiet trace quiet]
    exact left

theorem Tracks.quiet {m m' : Mutator Task Solver} {trace : List (Observation Task Solver)}
    {o : Observation Task Solver} (tracks : Tracks stages n m trace) (quiet : o.solveCall = none)
    (solvers : m'.solvers = m.solvers) (task : m'.curTask = m.curTask)
    (index : m'.curSolverIndex = m.curSolverIndex) (stage : m'.curSolverStage = m.curSolverStage)
    (state : m'.curMutationState = m.curMutationState) :
    Tracks stages n m' (trace ++ [o]) := by
  refine ⟨solvers ▸ tracks.length, solvers ▸ tracks.staged, fun t current => ?_, fun dropped => ?_⟩
  · obtain ⟨s1, found, sameTask, sameIndex, located, inRange, nonneg, within, pending⟩ :=
      tracks.current t (task ▸ current)
    rw [lastSolve_quiet trace quiet, sinceLastSolve_quiet trace quiet, solvers, index]
    exact ⟨s1, found, sameTask, sameIndex, located, inRange, nonneg, within,
      pending.mono stage state o⟩
  · rw [lastSolve_quiet trace quiet, sinceLastSolve_quiet trace quiet]
    exact fun s1 found => (tracks.idle (task ▸ dropped) s1 found).mono o

theorem solveWith_solve (solver : Solver) (m : Mutator Task Solver) (dequeued : Option Task)
    (result : SolverResult) :
    (solveWith solver m dequeued result).2.solve =
      some ⟨m.curTask, m.curSolverIndex, m.curSolverStage, solver, result⟩ := by
  cases result <;> rfl

theorem lastSolve_solved (trace : List (Observation Task Solver)) {f : FuzzCall Task Solver}
    {s : SolveCall Task Solver} (solved : f.solve = some s) :
    lastSolve (trace ++ [.fuzzed f]) = some s := by
  rw [lastSolve_append, Observation.solveCall, solved]
  rfl

theorem sinceLastSolve_solved (trace : List (Observation Task Solver)) {f : FuzzCall Task Solver}
    {s : SolveCall Task Solver} (solved : f.solve = some s) :
    sinceLastSolve (trace ++ [.fuzzed f]) = [] := by
  simp [sinceLastSolve_append, Observation.solveCall, solved]

theorem Tracks.solved {m : Mutator Task Solver} (trace : List (Observation Task Solver))
    {task : Task} {solver : Solver} (dequeued : Option Task) {result : SolverResult}
    (length : m.solvers.length = n) (staged : ∀ s ∈ m.solvers, 0 < stages s)
    (current : m.curTask = some task) (located : m.solvers.get? m.curSolverIndex = some solver)
    (inRange : m.curSolverIndex < n) (nonneg : 0 ≤ m.curSolverStage)
    (within : m.curSolverStage < stages solver)
    (answered : result = .sat ∨ result = .unsat ∨ result = .timeout) :
    Tracks stages n (solveWith solver m dequeued result).1
      (trace ++ [.fuzzed (solveWith solver m dequeued result).2]) := by
  have found := lastSolve_solved trace (solveWith_solve solver m dequeued result)
  have since := sinceLastSolve_solved trace (solveWith_solve solver m dequeued result)
  rcases answered with rfl | rfl | rfl
  · refine ⟨length, staged, fun t now => ⟨_, found, ?_⟩, fun dropped => ?_⟩
    · exact ⟨now, rfl, located, inRange, nonneg, within, .inl ⟨rfl, rfl, rfl⟩⟩
    · cases current.symm.trans dropped
  · refine ⟨length, staged, fun t now => ?_, fun _ s1 found' => ?_⟩
    · cases now
    · rw [found] at found'
      cases found'
      exact .inl rfl
  · refine ⟨length, staged, fun t now => ⟨_, found, ?_⟩, fun dropped => ?_⟩
    · exact ⟨now, rfl, located, inRange, nonneg, within, .inr (.inl ⟨rfl, rfl, rfl⟩)⟩
    · cases current.symm.trans dropped

end Invariant

/-! ## One host call -/

section Step

variable {stages : Solver → Nat} {n : Nat}

theorem fuzzCount_step {m : Mutator Task Solver} {trace : List (Observation Task Solver)}
    (tracks : Tracks stages n m trace) (entryId entryName : Nat) (run : Option (List Task)) :
    ∃ m' o, m.step stages (.fuzzCount entryId entryName run) = .ok (m', o) ∧
      ObservationOk stages n trace o ∧ Tracks stages n m' (trace ++ [o]) := by
  refine ⟨_, _, rfl, trivial, ?_⟩
  unfold aflCustomFuzzCount
  by_cases fuzzed : entryId ∈ m.fuzzedInputs
  · simp only [fuzzed, if_true]
    exact tracks.quiet rfl rfl rfl rfl rfl rfl
  · cases run with
    | none => simp only [fuzzed, if_false]; exact tracks.quiet rfl rfl rfl rfl rfl rfl
    | some tasks =>
      simp only [fuzzed, if_false]
      refine tracks.idleAfter rfl rfl rfl fun s1 _ => .inr (.inr (.inl ?_))
      simp

theorem queueNewEntry_step {m : Mutator Task Solver} {trace : List (Observation Task Solver)}
    (tracks : Tracks stages n m trace) (origName : Nat) :
    ∃ m' o, m.step stages (.queueNewEntry origName) = .ok (m', o) ∧
      ObservationOk stages n trace o ∧ Tracks stages n m' (trace ++ [o]) := by
  refine ⟨_, _, rfl, trivial, ?_⟩
  unfold aflCustomQueueNewEntry
  by_cases promoted : m.curQueueEntry = origName ∧ m.curMutationState = .inValidation
  · rw [if_pos promoted, decide_eq_true promoted]
    have quiet : (Observation.newEntry true : Observation Task Solver).solveCall = none := rfl
    refine ⟨tracks.length, tracks.staged, fun t now => ?_, fun dropped s1 found => ?_⟩
    · obtain ⟨s1, found, task, index, located, inRange, nonneg, within, pending⟩ :=
        tracks.current t now
      have sat : s1.result = .sat := by
        rcases pending with ⟨sat, -⟩ | ⟨-, invalid, -⟩ | ⟨sat, -⟩
        · exact sat
        · cases invalid.symm.trans promoted.2
        · exact sat
      rw [lastSolve_quiet trace quiet, sinceLastSolve_quiet trace quiet]
      exact ⟨s1, found, task, index, located, inRange, nonneg, within,
        .inr (.inr ⟨sat, rfl, List.mem_append_right _ (List.mem_singleton_self _)⟩)⟩
    · rw [lastSolve_quiet trace quiet] at found
      rw [sinceLastSolve_quiet trace quiet]
      exact (tracks.idle dropped s1 found).mono _
  · rw [if_neg promoted]
    exact tracks.quiet rfl rfl rfl rfl rfl rfl

theorem solveWith_dequeued (solver : Solver) (m : Mutator Task Solver) (dequeued : Option Task)
    (result : SolverResult) : (solveWith solver m dequeued result).2.dequeued = dequeued := by
  cases result <;> rfl

theorem Mutator.bumped_of_not_inValidation {m : Mutator Task Solver}
    (waiting : m.curMutationState ≠ .inValidation) : m.bumped = m := by
  simp [Mutator.bumped, waiting]

theorem get?_set_of_get? {l : List Solver} {i j : Nat} {a : Solver} (found : l.get? j = some a) :
    (l.set i a).get? j = some a := by
  simp only [List.get?_eq_getElem?, List.getElem?_set] at found ⊢
  split
  · subst_vars
    simp [(List.getElem?_eq_some_iff.mp found).1]
  · exact found

theorem exists_get? {l : List Solver} {i : Nat} (below : i < l.length) : ∃ a, l.get? i = some a :=
  ⟨l[i], by simp [List.get?_eq_getElem?, below]⟩

theorem staged_set {l : List Solver} (staged : ∀ s ∈ l, 0 < stages s) {i : Nat} {a : Solver}
    (member : a ∈ l) : ∀ s ∈ l.set i a, 0 < stages s := fun s present =>
  (List.mem_or_eq_of_mem_set present).elim (staged s) fun same => same ▸ staged a member

theorem observationOk_solveWith {trace : List (Observation Task Solver)} {m : Mutator Task Solver}
    {solver : Solver} {dequeued : Option Task} {result : SolverResult}
    (inRange : m.curSolverIndex < n) (nonneg : 0 ≤ m.curSolverStage)
    (within : m.curSolverStage < stages solver)
    (starts : ∀ task, dequeued = some task → m.curTask = some task ∧ m.curSolverIndex = 0 ∧
      m.curSolverStage = 0 ∧ ∀ s1, lastSolve trace = some s1 →
        LeftFor stages n s1 (sinceLastSolve trace))
    (continues : dequeued = none → ∃ s1, lastSolve trace = some s1 ∧ m.curTask = s1.task ∧
      (m.curSolverIndex, m.curSolverStage) = nextPair stages s1) :
    ObservationOk stages n trace (.fuzzed (solveWith solver m dequeued result).2) := by
  dsimp only [ObservationOk]
  rw [solveWith_solve, solveWith_dequeued]
  refine ⟨fun s solved => ?_, fun task taken => ?_, fun s solved untaken => ?_⟩ <;>
    (try cases solved)
  · exact ⟨inRange, nonneg, within⟩
  · obtain ⟨current, index, stage, left⟩ := starts task taken
    exact ⟨⟨_, rfl, current, index, stage⟩, left⟩
  · exact continues untaken

section Fuzz

variable {m : Mutator Task Solver} {trace : List (Observation Task Solver)}
  (tracks : Tracks stages n m trace) (positive : 0 < n) {first : Solver}
  (firstFound : m.solvers.get? 0 = some first) (firstStaged : (0 : Int) < stages first)
  {result : SolverResult} (answered : result = .sat ∨ result = .unsat ∨ result = .timeout)

include tracks positive firstFound firstStaged answered

theorem Tracks.take_step (taking : m.curTask.isNone ∨ m.curMutationState = .validated) :
    ∃ m' f, aflCustomFuzz stages result m = .ok (m', f) ∧
      ObservationOk stages n trace (.fuzzed f) ∧ Tracks stages n m' (trace ++ [.fuzzed f]) := by
  cases queued : m.queue with
  | nil =>
    refine ⟨_, _, aflCustomFuzz_idle stages result m taking queued, by simp [ObservationOk], ?_⟩
    exact tracks.idleAfter rfl rfl rfl fun s1 found => (tracks.leaving taking s1 found).mono _
  | cons task rest =>
    let started : Mutator Task Solver := { m with
      queue := rest
      curTask := some task
      curSolverIndex := 0
      curSolverStage := 0
      curMutationState := .invalid }
    have unbumped : started.bumped = started := Mutator.bumped_of_not_inValidation nofun
    have solved := fuzzCurrent_stay stages result started (some task) firstFound
      (by rw [unbumped]; exact firstStaged)
    rw [unbumped] at solved
    refine ⟨_, _, (aflCustomFuzz_take stages result m taking queued).trans solved, ?_, ?_⟩
    · refine observationOk_solveWith (tracks.length ▸ positive) (Int.le_refl 0) firstStaged
        (fun t taken => ?_) (fun untaken => by cases untaken)
      cases taken
      exact ⟨rfl, rfl, rfl, tracks.leaving taking⟩
    · exact Tracks.solved trace (some task) tracks.length tracks.staged rfl firstFound
        (tracks.length ▸ positive) (Int.le_refl 0) firstStaged answered

theorem Tracks.keep_step (taking : ¬(m.curTask.isNone ∨ m.curMutationState = .validated)) :
    ∃ m' f, aflCustomFuzz stages result m = .ok (m', f) ∧
      ObservationOk stages n trace (.fuzzed f) ∧ Tracks stages n m' (trace ++ [.fuzzed f]) := by
  obtain ⟨task, current⟩ : ∃ task, m.curTask = some task := by
    cases now : m.curTask with
    | none => simp [now] at taking
    | some task => exact ⟨task, rfl⟩
  have notKept : m.curMutationState ≠ .validated := fun kept => taking (.inr kept)
  obtain ⟨s1, found, s1Task, index, located, inRange, nonneg, within, pending⟩ :=
    tracks.current task current
  have bumpedStage : m.bumped.curSolverStage = s1.stage + 1 := by
    rcases pending with ⟨-, state, stage⟩ | ⟨-, state, stage⟩ | ⟨-, state, -⟩
    · simp [Mutator.bumped, state, stage]
    · simp [Mutator.bumped, state, stage]
    · exact absurd state notKept
  rw [index] at located inRange
  have keep := aflCustomFuzz_keep stages result m current notKept
  have lastTask : m.bumped.curTask = some task := by simpa using current
  by_cases more : s1.stage + 1 < stages s1.solver
  · have solved := fuzzCurrent_stay stages result m none located
      (by rw [bumpedStage]; exact more)
    refine ⟨_, _, keep.trans solved, ?_, ?_⟩
    · refine observationOk_solveWith (by simpa using inRange) (by omega) (by omega)
        (fun _ taken => by cases taken) fun _ => ⟨s1, found, lastTask.trans s1Task.symm, ?_⟩
      simp [nextPair, more, index, bumpedStage]
    · exact Tracks.solved trace none (by simpa using tracks.length) (by simpa using tracks.staged)
        lastTask (by simpa using located) (by simpa using inRange) (by omega) (by omega) answered
  have past : (stages s1.solver : Int) ≤ m.bumped.curSolverStage := by omega
  by_cases nextSolver : m.curSolverIndex + 1 < n
  · obtain ⟨next, nextFound⟩ := exists_get? (tracks.length ▸ nextSolver)
    have nextStaged : (0 : Int) < stages next := by
      exact_mod_cast tracks.staged next (List.get?_mem nextFound)
    have solved := fuzzCurrent_nextSolver stages result m none located past
      (tracks.length ▸ nextSolver) nextFound
    refine ⟨_, _, keep.trans solved, ?_, ?_⟩
    · refine observationOk_solveWith nextSolver (Int.le_refl 0) nextStaged
        (fun _ taken => by cases taken) fun _ => ⟨s1, found, lastTask.trans s1Task.symm, ?_⟩
      simp [nextPair, more, index]
    · exact Tracks.solved trace none (by simpa using tracks.length)
        (staged_set tracks.staged (List.get?_mem nextFound)) lastTask
        (get?_set_of_get? nextFound) nextSolver (Int.le_refl 0) nextStaged answered
  have lastPair : s1.index + 1 = n ∧ s1.stage + 1 = stages s1.solver := ⟨by omega, by omega⟩
  have last : m.solvers.length ≤ m.curSolverIndex + 1 := by rw [tracks.length]; omega
  cases queued : m.queue with
  | nil =>
    have exhausted := fuzzCurrent_exhausted stages result m none located past
      last queued
    refine ⟨_, _, keep.trans exhausted, by simp [ObservationOk], ?_⟩
    refine tracks.idleAfter rfl (by simp) rfl fun s1' found' => ?_
    cases found.symm.trans found'
    exact LeftFor.mono (.inr (.inr (.inr lastPair))) _
  | cons next rest =>
    have solved := fuzzCurrent_nextTask stages result m none located past
      last queued firstFound
    refine ⟨_, _, keep.trans solved, ?_, ?_⟩
    · refine observationOk_solveWith (tracks.length ▸ positive) (Int.le_refl 0) firstStaged
        (fun t taken => ?_) (fun untaken => by cases untaken)
      cases taken
      refine ⟨rfl, rfl, rfl, fun s1' found' => ?_⟩
      cases found.symm.trans found'
      exact .inr (.inr (.inr lastPair))
    · exact Tracks.solved trace (some next) (by simpa using tracks.length)
        (staged_set tracks.staged (List.get?_mem firstFound)) rfl
        (get?_set_of_get? firstFound) (tracks.length ▸ positive) (Int.le_refl 0) firstStaged answered

end Fuzz

/-- `afl_custom_fuzz` solves as the schedule allows and keeps the invariant. -/
theorem aflCustomFuzz_step {m : Mutator Task Solver} {trace : List (Observation Task Solver)}
    (tracks : Tracks stages n m trace) (positive : 0 < n) {result : SolverResult}
    (answered : result = .sat ∨ result = .unsat ∨ result = .timeout) :
    ∃ m' f, aflCustomFuzz stages result m = .ok (m', f) ∧
      ObservationOk stages n trace (.fuzzed f) ∧ Tracks stages n m' (trace ++ [.fuzzed f]) := by
  obtain ⟨first, firstFound⟩ := exists_get? (tracks.length ▸ positive : 0 < m.solvers.length)
  have firstStaged : (0 : Int) < stages first := by
    exact_mod_cast tracks.staged first (List.get?_mem firstFound)
  by_cases taking : m.curTask.isNone ∨ m.curMutationState = .validated
  · exact tracks.take_step positive firstFound firstStaged answered taking
  · exact tracks.keep_step positive firstFound firstStaged answered taking

theorem Tracks.step {m : Mutator Task Solver} {trace : List (Observation Task Solver)}
    (tracks : Tracks stages n m trace) (positive : 0 < n) {call : HostCall Task}
    (answered : ∀ result, call = .fuzz result → result = .sat ∨ result = .unsat ∨ result = .timeout) :
    ∃ m' o, m.step stages call = .ok (m', o) ∧ ObservationOk stages n trace o ∧
      Tracks stages n m' (trace ++ [o]) := by
  cases call with
  | fuzzCount entryId entryName run => exact fuzzCount_step tracks entryId entryName run
  | fuzz result =>
    obtain ⟨m', f, fuzzed, ok, tracks'⟩ := aflCustomFuzz_step tracks positive (answered result rfl)
    exact ⟨m', .fuzzed f, by simp [Mutator.step, fuzzed]; rfl, ok, tracks'⟩
  | queueNewEntry origName => exact queueNewEntry_step tracks origName

end Step

/-! ## The schedule of every run -/

/-- Two one-stage solvers and two tasks: moving from solver 0 to solver 1
assigns solver 1 into slot 0, so the second task is solved by solver 1 at
index 0 and solver 0 is never called again. -/
theorem run_overwrites_solver :
    ∃ m trace, Mutator.run (fun _ => 1)
        [HostCall.fuzzCount 1 1 (some [7, 8]), .fuzz .timeout, .fuzz .timeout, .fuzz .timeout]
        (Mutator.init [0, 1] : Mutator Nat Nat) = .ok (m, trace) ∧
      m.solvers = [1, 1] ∧
      (trace.filterMap Observation.solveCall).map (fun s => (s.task, s.index, s.solver)) =
        [(some 7, 0, 0), (some 7, 1, 1), (some 8, 0, 1)] :=
  ⟨_, _, rfl, rfl, rfl⟩

end Symsan
