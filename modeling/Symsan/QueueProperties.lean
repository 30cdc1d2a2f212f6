import Symsan.DriverProperties

/-!
# The task queue

`afl_custom_fuzz_count` traces a queue entry only on its first call for it and
hands the tasks of that run to the FIFO task manager; `afl_custom_fuzz` takes
tasks from its front. With every solver of at least one stage, a call of
`afl_custom_fuzz` takes at most one task and records it, so over any run of the
three callbacks the tasks taken, in the order taken, followed by those still
queued, are the queue the run started from followed by the tasks enqueued
(`run_takesInOrder`): no task is lost, taken twice or taken out of order.
-/

set_option autoImplicit false

namespace Symsan

variable {Task Solver : Type}

/-! ## What the calls enqueue and take -/

/-- The tasks one host call enqueues and the queue entries traced after it,
when those of `seen` were traced before: the first `afl_custom_fuzz_count` of
an entry enqueues the tasks of its tracer run, a later one nothing. -/
def HostCall.enqueues : HostCall Task → List Nat → List Task × List Nat
  | .fuzzCount entryId _ run, seen =>
    if entryId ∈ seen then ([], seen) else (run.getD [], seen.insert entryId)
  | _, seen => ([], seen)

/-- The tasks a sequence of host calls enqueues, in order. -/
def enqueuedBy : List (HostCall Task) → List Nat → List Task
  | [], _ => []
  | call :: rest, seen => (call.enqueues seen).1 ++ enqueuedBy rest (call.enqueues seen).2

/-- The task an observed call took from the queue, if any. -/
def Observation.taken : Observation Task Solver → List Task
  | .fuzzed call => call.dequeued.toList
  | _ => []

/-! ## One call -/

section Step

variable (stages : Solver → Nat) (result : SolverResult)

@[simp] theorem solveWith_queue (solver : Solver) (m : Mutator Task Solver) (dequeued : Option Task) :
    (solveWith solver m dequeued result).1.queue = m.queue := by
  cases result <;> rfl

@[simp] theorem solveWith_solvers (solver : Solver) (m : Mutator Task Solver) (dequeued : Option Task) :
    (solveWith solver m dequeued result).1.solvers = m.solvers := by
  cases result <;> rfl

@[simp] theorem solveWith_fuzzedInputs (solver : Solver) (m : Mutator Task Solver)
    (dequeued : Option Task) :
    (solveWith solver m dequeued result).1.fuzzedInputs = m.fuzzedInputs := by
  cases result <;> rfl

@[simp] theorem Mutator.bumped_fuzzedInputs (m : Mutator Task Solver) :
    m.bumped.fuzzedInputs = m.fuzzedInputs := by
  unfold Mutator.bumped; split <;> rfl

/-- What a call of `afl_custom_fuzz` leaves: the task it records taking,
followed by the queue it leaves, is `queue`; the solvers keep a stage each, and
the traced entries are `fuzzed`. -/
structure Takes (queue : List Task) (fuzzed : List Nat) (r : Mutator Task Solver × FuzzCall Task Solver) :
    Prop where
  inOrder : r.2.dequeued.toList ++ r.1.queue = queue
  staged : ∀ s ∈ r.1.solvers, 0 < stages s
  traced : r.1.fuzzedInputs = fuzzed

theorem takes_solveWith {queue : List Task} {fuzzed : List Nat} (solver : Solver) (m : Mutator Task Solver)
    (dequeued : Option Task) (staged : ∀ s ∈ m.solvers, 0 < stages s)
    (inOrder : dequeued.toList ++ m.queue = queue) (traced : m.fuzzedInputs = fuzzed) :
    Takes stages queue fuzzed (solveWith solver m dequeued result) :=
  ⟨by rw [solveWith_dequeued, solveWith_queue, inOrder], by simpa using staged, by simpa using traced⟩

variable {m : Mutator Task Solver} (staged : ∀ s ∈ m.solvers, 0 < stages s)
include staged

theorem fuzzCurrent_takes {dequeued : Option Task} {r : Mutator Task Solver × FuzzCall Task Solver}
    (fresh : dequeued.isSome → m.bumped.curSolverStage = 0)
    (fuzzed : fuzzCurrent stages result m dequeued = .ok r) :
    Takes stages (dequeued.toList ++ m.queue) m.fuzzedInputs r := by
  cases located : m.solvers.get? m.curSolverIndex with
  | none =>
    simp only [fuzzCurrent, Mutator.bumped_solvers, Mutator.bumped_curSolverIndex, located] at fuzzed
    cases fuzzed
  | some solver =>
    have positive : 0 < stages solver := staged solver (List.get?_mem located)
    by_cases past : stages solver ≤ m.bumped.curSolverStage
    · have unstarted : dequeued = none := by
        cases dequeued with
        | none => rfl
        | some _ => have := fresh rfl; omega
      subst unstarted
      by_cases last : m.solvers.length ≤ m.curSolverIndex + 1
      · cases queued : m.queue with
        | nil =>
          rw [fuzzCurrent_exhausted stages result m none located past last queued] at fuzzed
          cases fuzzed
          exact ⟨by simp [queued], by simpa using staged, by simp⟩
        | cons task rest =>
          obtain ⟨next, first⟩ := exists_get? (List.length_pos_of_mem (List.get?_mem located))
          rw [fuzzCurrent_nextTask stages result m none located past last queued first] at fuzzed
          cases fuzzed
          exact takes_solveWith stages result _ _ _ (staged_set staged (List.get?_mem first)) rfl (by simp)
      · obtain ⟨next, following⟩ := exists_get? (by omega : m.curSolverIndex + 1 < m.solvers.length)
        rw [fuzzCurrent_nextSolver stages result m none located past (by omega) following] at fuzzed
        cases fuzzed
        exact takes_solveWith stages result _ _ _ (staged_set staged (List.get?_mem following)) (by simp) (by simp)
    · rw [fuzzCurrent_stay stages result m dequeued located (by omega)] at fuzzed
      cases fuzzed
      exact takes_solveWith stages result _ _ _ (by simpa using staged) (by simp) (by simp)

theorem aflCustomFuzz_takes {r : Mutator Task Solver × FuzzCall Task Solver}
    (fuzzed : aflCustomFuzz stages result m = .ok r) : Takes stages m.queue m.fuzzedInputs r := by
  by_cases taking : m.curTask.isNone ∨ m.curMutationState = .validated
  · cases queued : m.queue with
    | nil =>
      rw [aflCustomFuzz_idle stages result m taking queued] at fuzzed
      cases fuzzed
      exact ⟨queued, staged, rfl⟩
    | cons task rest =>
      rw [aflCustomFuzz_take stages result m taking queued] at fuzzed
      refine fuzzCurrent_takes stages result ?_ ?_ fuzzed
      exacts [staged, fun _ => rfl]
  · simp only [not_or] at taking
    obtain ⟨task, current⟩ : ∃ task, m.curTask = some task := by
      cases current : m.curTask with
      | none => simp [current] at taking
      | some task => exact ⟨task, rfl⟩
    rw [aflCustomFuzz_keep stages result m current taking.2] at fuzzed
    simpa using fuzzCurrent_takes stages result staged (by simp) fuzzed

/-- One host call: what it takes followed by the queue it leaves is the queue
it found followed by what it enqueues. -/
theorem Mutator.step_takes {call : HostCall Task} {r : Mutator Task Solver × Observation Task Solver}
    (stepped : m.step stages call = .ok r) :
    r.2.taken ++ r.1.queue = m.queue ++ (call.enqueues m.fuzzedInputs).1 ∧
      r.1.fuzzedInputs = (call.enqueues m.fuzzedInputs).2 ∧ ∀ s ∈ r.1.solvers, 0 < stages s := by
  cases call with
  | fuzzCount entryId entryName run =>
    cases stepped
    by_cases traced : entryId ∈ m.fuzzedInputs
    · simpa [aflCustomFuzzCount, HostCall.enqueues, Observation.taken, traced] using staged
    · cases run <;> simpa [aflCustomFuzzCount, HostCall.enqueues, Observation.taken, traced] using staged
  | fuzz result =>
    cases fuzzed : aflCustomFuzz stages result m with
    | error fault => simp [Mutator.step, fuzzed, Except.map] at stepped
    | ok r' =>
      simp only [Mutator.step, fuzzed, Except.map] at stepped
      cases stepped
      obtain ⟨inOrder, staged', traced⟩ := aflCustomFuzz_takes stages result staged fuzzed
      exact ⟨by simpa [Observation.taken, HostCall.enqueues] using inOrder, traced, staged'⟩
  | queueNewEntry origName =>
    cases stepped
    unfold aflCustomQueueNewEntry
    split <;> exact ⟨by simp [Observation.taken, HostCall.enqueues], rfl, staged⟩

end Step

/-! ## Runs -/

/-- Over any run of the three callbacks with every solver of at least one stage,
the tasks `afl_custom_fuzz` takes, in the order it takes them, followed by the
tasks still queued, are the queue the run started from followed by the tasks the
first tracer run of each queue entry enqueued, in order. -/
theorem run_takesInOrder (stages : Solver → Nat) (calls : List (HostCall Task)) :
    ∀ (m : Mutator Task Solver) r, (∀ s ∈ m.solvers, 0 < stages s) → Mutator.run stages calls m = .ok r →
      r.2.flatMap Observation.taken ++ r.1.queue = m.queue ++ enqueuedBy calls m.fuzzedInputs := by
  induction calls with
  | nil =>
    intro m r _ ran
    cases ran
    simp [enqueuedBy]
  | cons call rest ih =>
    intro m r staged ran
    cases stepped : m.step stages call with
    | error fault => simp [Mutator.run, stepped, bind, Except.bind] at ran
    | ok r1 =>
      cases rested : Mutator.run stages rest r1.1 with
      | error fault => simp [Mutator.run, stepped, rested, bind, Except.bind, Functor.map, Except.map] at ran
      | ok r2 =>
        simp only [Mutator.run, stepped, rested, bind, Except.bind, Functor.map, Except.map] at ran
        cases ran
        obtain ⟨takes, traced, staged1⟩ := Mutator.step_takes stages staged stepped
        calc (r1.2 :: r2.2).flatMap Observation.taken ++ r2.1.queue
            = r1.2.taken ++ (r2.2.flatMap Observation.taken ++ r2.1.queue) := by
              rw [List.flatMap_cons, List.append_assoc]
          _ = (r1.2.taken ++ r1.1.queue) ++ enqueuedBy rest r1.1.fuzzedInputs := by
              rw [ih r1.1 r2 staged1 rested, List.append_assoc]
          _ = m.queue ++ enqueuedBy (call :: rest) m.fuzzedInputs := by
              rw [takes, traced, enqueuedBy, List.append_assoc]

/-- Two queue entries, the first met twice: the tasks come out in the order
the first run of each entry enqueued them. -/
def twoEntriesCalls : List (HostCall Nat) :=
  [.fuzzCount 1 1 (some [7, 8]), .fuzz .timeout, .fuzz .unsat, .fuzzCount 1 1 (some [5]),
    .fuzzCount 2 2 (some [9]), .fuzz .sat, .queueNewEntry 2, .fuzz .timeout]

theorem twoEntries_takenInOrder : ∃ r, Mutator.run (fun _ => 1) twoEntriesCalls (Mutator.init [0] : Mutator Nat Nat) =
    .ok r ∧ r.2.flatMap Observation.taken ++ r.1.queue = [7, 8, 9] := by
  obtain ⟨r, ran⟩ : ∃ r, Mutator.run (fun _ => 1) twoEntriesCalls (Mutator.init [0] : Mutator Nat Nat) = .ok r :=
    ⟨_, rfl⟩
  exact ⟨r, ran, run_takesInOrder (fun _ => 1) twoEntriesCalls _ r (by decide) ran⟩

end Symsan
