import Symsan.TaskProperties
import Symsan.FinalizeProperties
import Symsan.NormalProperties
import Symsan.Trace

/-!
# What a tracer run enqueues

Every clause `to_dnf` builds holds a node (`toDnf_clause_ne_nil`), and
`construct_task` faults on every non-empty clause, since it never fills the
task's `comparisons`. So `construct_tasks` either finds a constant root and
builds nothing, or faults at its first clause: a branch whose negation is
interesting ends the tracer run at a fault unless its root is a constant. A
tracer run that completes has enqueued no task and cached no constraint
(`tracerRun_enqueuesNothing`).
-/

set_option autoImplicit false

namespace Symsan

section Construct

variable (xxhash : Nat → Nat → Nat → Nat) (t : LabelTable) (buf : List Nat)

theorem constructTask_cons_fails (node : AstNode) (rest : List AstNode) (cache : ExprCache)
    (r : SearchTask × ExprCache) : constructTask xxhash t buf (node :: rest) cache ≠ .ok r := by
  unfold constructTask
  cases collected : collectConstraints xxhash t buf (node :: rest) [] cache with
  | error fault => simp [bind, Except.bind]
  | ok result =>
    obtain ⟨constraints, cache'⟩ := result
    have length := collectConstraints_length xxhash t buf collected
    obtain ⟨c, others, rfl⟩ : ∃ c others, constraints = c :: others :=
      List.exists_cons_of_ne_nil fun empty => by simp [empty] at length
    simp [bind, Except.bind,
      finalize_without_comparisons { SearchTask.empty with constraints := c :: others } c others rfl rfl]

theorem clausesOf_ne_nil {targetDirection : Bool} {label : Nat} {dnf : Formula}
    (clauses : clausesOf t targetDirection label = some dnf) : ∀ clause ∈ dnf, clause ≠ [] := by
  dsimp only [clausesOf] at clauses
  split at clauses
  · cases clauses
  · cases clauses
    exact toDnf_clause_ne_nil _ [] fun _ absent => nomatch absent

theorem constructEach_nothing {clauses : Formula} (nonempty : ∀ clause ∈ clauses, clause ≠ [])
    {cache : ExprCache} {r : List SearchTask × ExprCache}
    (built : constructEach xxhash t buf clauses cache = .ok r) : r = ([], cache) := by
  cases clauses with
  | nil => cases built; rfl
  | cons clause rest =>
    obtain ⟨node, others, rfl⟩ := List.exists_cons_of_ne_nil (nonempty clause (List.mem_cons_self _ _))
    cases task : constructTask xxhash t buf (node :: others) cache with
    | error fault => simp [constructEach, task, bind, Except.bind] at built
    | ok result => exact absurd task (constructTask_cons_fails xxhash t buf node others cache result)

/-- `construct_tasks` returns no task and the cache as it was, whatever the
label. -/
theorem constructTasks_nothing {targetDirection : Bool} {label : Nat} {cache : ExprCache}
    {r : Bool × List SearchTask × ExprCache}
    (built : constructTasks xxhash t buf targetDirection label cache = .ok r) : r.2 = ([], cache) := by
  cases clauses : clausesOf t targetDirection label with
  | none =>
    simp only [constructTasks, clauses, pure, Except.pure, Except.ok.injEq] at built
    subst built
    rfl
  | some dnf =>
    obtain ⟨result, each, returned⟩ := except_bind_ok (show (constructEach xxhash t buf dnf cache >>= _) = _ by
      rw [← built, constructTasks, clauses])
    rw [constructEach_nothing xxhash t buf (clausesOf_ne_nil t clauses) each] at returned
    cases returned
    rfl

end Construct

/-! ## Tracer runs -/

section Run

variable (xxhash : Nat → Nat → Nat → Nat) (t : LabelTable) (buf : List Nat) {σ : Type}
  (cov : CovManager σ)

theorem handleCond_nothing {msg : PipeMsg} {s s' : TraceState σ}
    (handled : handleCond xxhash t buf cov msg s = .ok s') :
    s'.tasks = s.tasks ∧ s'.exprCache = s.exprCache := by
  unfold handleCond at handled
  split at handled
  · cases handled
    exact ⟨rfl, rfl⟩
  · split at handled
    dsimp only at handled
    split at handled
    · obtain ⟨⟨found, tasks, cache⟩, built, returned⟩ := except_bind_ok handled
      obtain ⟨rfl, rfl⟩ := Prod.mk.inj (constructTasks_nothing xxhash t buf built)
      cases returned
      exact ⟨List.append_nil _, rfl⟩
    · cases handled
      exact ⟨rfl, rfl⟩

theorem handleDispatch_nothing {dispatch : Dispatch} {s s' : TraceState σ}
    (handled : handleDispatch xxhash t buf cov s dispatch = .ok s') :
    s'.tasks = s.tasks ∧ s'.exprCache = s.exprCache := by
  cases dispatch with
  | cond msg => exact handleCond_nothing xxhash t buf cov handled
  | overflow => cases handled

/-- A tracer run that completes has enqueued no task and cached no constraint:
every branch whose negation is interesting had a constant root. -/
theorem tracerRun_enqueuesNothing (gepMsgSize : Nat) (covState : σ) (stream garbage : List Nat)
    {s : TraceState σ} (ran : tracerRun xxhash t buf cov gepMsgSize covState stream garbage = .ok s) :
    s.tasks = [] ∧ s.exprCache = [] := by
  suffices run : ∀ (dispatches : List Dispatch) (start : TraceState σ),
      dispatches.foldlM (handleDispatch xxhash t buf cov) start = .ok s →
        s.tasks = start.tasks ∧ s.exprCache = start.exprCache from run _ _ ran
  intro dispatches
  induction dispatches with
  | nil =>
    intro start ran
    cases ran
    exact ⟨rfl, rfl⟩
  | cons dispatch rest ih =>
    intro start ran
    rw [List.foldlM_cons] at ran
    cases handled : handleDispatch xxhash t buf cov start dispatch with
    | error fault => simp [handled, bind, Except.bind] at ran
    | ok next =>
      simp only [handled, bind, Except.bind] at ran
      obtain ⟨tasks, cache⟩ := handleDispatch_nothing xxhash t buf cov handled
      obtain ⟨tasks', cache'⟩ := ih next ran
      exact ⟨tasks'.trans tasks, cache'.trans cache⟩

end Run

/-- Label 1 reads input byte 0 and 2 truncates it to its low bit. -/
def lowBitTable : LabelTable := fun label =>
  match label with
  | 1 => ⟨0, 0, 0, 0, .input, 8⟩
  | 2 => ⟨1, 0, 0, 0, .trunc, 1⟩
  | _ => default

/-- A coverage manager that counts the branches it sees and finds every
negation interesting. -/
def countingCov : CovManager Nat := ⟨fun seen ctx => (seen + 1, ctx), fun _ _ => true⟩

/-- Two cond records: one on label 0, which `handle_cond` skips, and one on the
low bit of byte 0, which has no comparison to solve. -/
def lowBitStream : List Nat :=
  PipeMsg.encode ⟨condType, 0, 0, 1024, 0, 7, 0, 1⟩ ++ PipeMsg.encode ⟨condType, 0, 0, 1028, 0, 8, 2, 0⟩

theorem lowBitStream_enqueuesNothing : ∃ s, tracerRun (fun _ _ _ => 0) lowBitTable [1] countingCov 12 0
    lowBitStream [] = .ok s ∧ s.tasks = [] ∧ s.exprCache = [] := by
  obtain ⟨s, ran⟩ : ∃ s, tracerRun (fun _ _ _ => 0) lowBitTable [1] countingCov 12 0 lowBitStream [] = .ok s :=
    ⟨_, rfl⟩
  exact ⟨s, ran, tracerRun_enqueuesNothing (fun _ _ _ => 0) lowBitTable [1] countingCov 12 0 lowBitStream [] ran⟩

end Symsan
