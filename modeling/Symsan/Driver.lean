import Symsan.Task

/-!
# The fuzzer-facing driver

`afl_custom_fuzz_count`, `afl_custom_fuzz` and `afl_custom_queue_new_entry` as
transitions of the mutator state `my_mutator_t`. Tasks and solvers are opaque:
a solver is known by its `stages()` count, and the answer of each `solve`
call is an input of the transition that makes it. The tasks one tracer run
enqueues are an input of `afl_custom_fuzz_count` (`tracerRun` computes them
from the message stream).
-/

set_option autoImplicit false

namespace Symsan

/-- `mutation_state_t`. -/
inductive MutationState
  | invalid | inValidation | validated
  deriving Repr, DecidableEq

/-- Modelled from the spec: the answers of `Solver::solve` (solver.h is not part
of the source); `other` is any value outside the three. -/
inductive SolverResult
  | sat | unsat | timeout
  | other (code : Int)
  deriving Repr, DecidableEq

/-- The part of `my_mutator_t` the three callbacks read and write. The FIFO
task manager is its queue. -/
structure Mutator (Task Solver : Type) where
  solvers : List Solver
  queue : List Task
  curTask : Option Task
  curSolverIndex : Nat
  curSolverStage : Int
  curMutationState : MutationState
  curQueueEntry : Nat
  fuzzedInputs : List Nat

/-- The state `afl_custom_init` leaves: the constructor's `-1` index and stage,
and the configured solvers. -/
def Mutator.init {Task Solver : Type} (solvers : List Solver) : Mutator Task Solver :=
  ⟨solvers, [], none, 2 ^ 64 - 1, -1, .invalid, 0, []⟩

/-- What `afl_custom_fuzz` hands back to the host. -/
inductive FuzzOutput
  /-- `*out_buf = buf`, the input unchanged -/
  | input
  /-- the solver's `output_buf` -/
  | solution
  /-- size 0, an error for the host -/
  | empty
  deriving Repr, DecidableEq

/-- One call of `solve`: the task, the solver index and stage, the solver
object called, and its answer. -/
structure SolveCall (Task Solver : Type) where
  task : Option Task
  index : Nat
  stage : Int
  solver : Solver
  result : SolverResult

/-- What one `afl_custom_fuzz` call did: the task it took from the queue, if
any, the solve call it made, if any, and its output. -/
structure FuzzCall (Task Solver : Type) where
  dequeued : Option Task
  solve : Option (SolveCall Task Solver)
  output : FuzzOutput

section Callbacks

variable {Task Solver : Type} (stages : Solver → Nat)

/-- Steps 4 and 5 of `afl_custom_fuzz`: call `solver` and act on its answer. -/
def solveWith (solver : Solver) (m : Mutator Task Solver) (dequeued : Option Task)
    (result : SolverResult) : Mutator Task Solver × FuzzCall Task Solver :=
  let call : SolveCall Task Solver :=
    ⟨m.curTask, m.curSolverIndex, m.curSolverStage, solver, result⟩
  match result with
  | .sat => ({ m with curMutationState := .inValidation }, ⟨dequeued, some call, .solution⟩)
  | .timeout =>
    ({ m with curMutationState := .invalid, curSolverStage := m.curSolverStage + 1 },
      ⟨dequeued, some call, .input⟩)
  | .unsat => ({ m with curTask := none }, ⟨dequeued, some call, .input⟩)
  | .other _ => (m, ⟨dequeued, some call, .empty⟩)

/-- Step 2 of `afl_custom_fuzz`: after a mutation the host did not keep, move to
the next stage. -/
def Mutator.bumped (m : Mutator Task Solver) : Mutator Task Solver :=
  if m.curMutationState = .inValidation then { m with curSolverStage := m.curSolverStage + 1 }
  else m

/-- Steps 2 and 3 of `afl_custom_fuzz` and the solve call, on the current
task: past the last stage of the solver, move to the next solver, or past the
last solver to the next task. The solver is held through `auto &solver`, a
reference into `solvers`, so moving on assigns the next solver into the
current slot. -/
def fuzzCurrent (result : SolverResult) (m : Mutator Task Solver) (dequeued : Option Task) :
    Except Fault (Mutator Task Solver × FuzzCall Task Solver) :=
  let m := m.bumped
  let slot := m.curSolverIndex
  match m.solvers.get? slot with
  | none => .error .outOfRange
  | some solver =>
    if (stages solver : Int) ≤ m.curSolverStage then
      let index := m.curSolverIndex + 1
      let advanced : Option (Mutator Task Solver × Option Task) :=
        if m.solvers.length ≤ index then
          match m.queue with
          | [] => none
          | task :: rest =>
            some ({ m with queue := rest, curTask := some task, curSolverIndex := 0 }, some task)
        else some ({ m with curSolverIndex := index }, dequeued)
      match advanced with
      | none => .ok ({ m with curSolverIndex := index, curTask := none }, ⟨dequeued, none, .input⟩)
      | some (m, dequeued) =>
        match m.solvers.get? m.curSolverIndex with
        | none => .error .outOfRange
        | some next =>
          .ok (solveWith next { m with solvers := m.solvers.set slot next, curSolverStage := 0 }
            dequeued result)
    else .ok (solveWith solver m dequeued result)

/-- `afl_custom_fuzz`, whose `solve` call answers `result`: take the next task
when there is no current one or the last mutation was kept, then go on with
`fuzzCurrent`. -/
def aflCustomFuzz (result : SolverResult) (m : Mutator Task Solver) :
    Except Fault (Mutator Task Solver × FuzzCall Task Solver) :=
  let started : Option (Mutator Task Solver × Option Task) :=
    if m.curTask.isNone ∨ m.curMutationState = .validated then
      match m.queue with
      | [] => none
      | task :: rest =>
        some ({ m with
          queue := rest
          curTask := some task
          curSolverIndex := 0
          curSolverStage := 0
          curMutationState := .invalid }, some task)
    else some (m, none)
  match started with
  | none => .ok ({ m with curTask := none }, ⟨none, none, .input⟩)
  | some (m, dequeued) => fuzzCurrent stages result m dequeued

/-- `afl_custom_queue_new_entry`: the host kept a mutation of `origName`. -/
def aflCustomQueueNewEntry (origName : Nat) (m : Mutator Task Solver) : Mutator Task Solver :=
  if m.curQueueEntry = origName ∧ m.curMutationState = .inValidation then
    { m with curMutationState := .validated }
  else m

/-- `afl_custom_fuzz_count` for queue entry `entryId` named `entryName`. `run`
is `none` when the pipe or the fork fails, otherwise the tasks the tracer run
enqueued. Returns the bound on mutations it reports. -/
def aflCustomFuzzCount (entryId entryName : Nat) (run : Option (List Task))
    (m : Mutator Task Solver) : Mutator Task Solver × Nat :=
  if entryId ∈ m.fuzzedInputs then (m, 0)
  else
    let m := { m with fuzzedInputs := m.fuzzedInputs.insert entryId, curQueueEntry := entryName }
    match run with
    | none => (m, 0)
    | some tasks =>
      let m := { m with queue := m.queue ++ tasks, curTask := none }
      (m, u32 (m.queue.length * (m.solvers.map stages).sum))

end Callbacks

/-- A call from the host. -/
inductive HostCall (Task : Type)
  | fuzzCount (entryId entryName : Nat) (run : Option (List Task))
  | fuzz (result : SolverResult)
  | queueNewEntry (origName : Nat)

/-- What a host call did, as the schedule observes it. -/
inductive Observation (Task Solver : Type)
  /-- `afl_custom_fuzz_count`; `reset` when it cleared `cur_task` -/
  | counted (reset : Bool)
  | fuzzed (call : FuzzCall Task Solver)
  /-- `afl_custom_queue_new_entry`; `promoted` when it validated the mutation -/
  | newEntry (promoted : Bool)

section Run

variable {Task Solver : Type} (stages : Solver → Nat)

/-- One host call. -/
def Mutator.step (call : HostCall Task) (m : Mutator Task Solver) :
    Except Fault (Mutator Task Solver × Observation Task Solver) :=
  match call with
  | .fuzzCount entryId entryName run =>
    .ok ((aflCustomFuzzCount stages entryId entryName run m).1,
      .counted (entryId ∉ m.fuzzedInputs ∧ run.isSome))
  | .fuzz result => (aflCustomFuzz stages result m).map fun (m, call) => (m, .fuzzed call)
  | .queueNewEntry origName =>
    .ok (aflCustomQueueNewEntry origName m,
      .newEntry (m.curQueueEntry = origName ∧ m.curMutationState = .inValidation))

/-- A sequence of host calls and what each did. -/
def Mutator.run : List (HostCall Task) → Mutator Task Solver →
    Except Fault (Mutator Task Solver × List (Observation Task Solver))
  | [], m => .ok (m, [])
  | call :: rest, m => do
    let (m, observation) ← m.step stages call
    let (m, observations) ← Mutator.run rest m
    pure (m, observation :: observations)

end Run

end Symsan
