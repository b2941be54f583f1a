import TableHistory.Proofs.Operation.Folding
import TableHistory.Proofs.Writes

namespace TableHistory.LoadedOperation

inductive Change
  | body (state : State) (body : Bytes)
  | completionTime (time : String)

namespace Change

def apply (operation : LoadedOperation) : Change → LoadedOperation
  | body state bytes => operation.withBody state bytes
  | completionTime time => operation.withCompletionTime time

-- What is set for the body of a state.
def bodyOf? (state : State) : Change → Option Bytes
  | body other bytes => if other = state then some bytes else none
  | completionTime _ => none

def time? : Change → Option String
  | body _ _ => none
  | completionTime time => some time

end Change

def changed (operation : LoadedOperation) (changes : List Change) : LoadedOperation :=
  changes.foldl Change.apply operation

-- The body that is set last for a state. No bytes stand for a body that never is.
def lastBody (changes : List Change) (state : State) : Bytes :=
  (changes.filterMap (Change.bodyOf? state)).getLast?.getD []

def lastTime? (changes : List Change) : Option String :=
  (changes.filterMap Change.time?).getLast?

-- An operation without bodies.
def bare (time : String) (pending action : Action) : LoadedOperation :=
  { instantTime := time, action := action, pendingAction := pending }

variable {time : String} {pending action : Action} {changes : List Change}
  {bodies others : State → Bytes}

-- A change is one of a body or of the completion time, and leaves all else alone.
theorem body_apply (operation : LoadedOperation) (change : Change) (state : State) :
    (change.apply operation).body state =
      ((change.bodyOf? state).map kept).getD (operation.body state) := by
  cases change with
  | body other bytes =>
      simp only [Change.apply, Change.bodyOf?, body_withBody, eq_comm (a := state)]
      split
      · rfl
      · rfl
  | completionTime time => cases state <;> rfl

theorem completionTime_apply (operation : LoadedOperation) (change : Change) :
    (change.apply operation).completionTime =
      (change.time?.map some).getD operation.completionTime := by
  cases change with
  | body state bytes => cases state <;> rfl
  | completionTime time => rfl

theorem origin_apply (operation : LoadedOperation) (change : Change) :
    (change.apply operation).instantTime = operation.instantTime ∧
      (change.apply operation).action = operation.action ∧
      (change.apply operation).pendingAction = operation.pendingAction := by
  cases change with
  | body state bytes => cases state <;> exact ⟨rfl, rfl, rfl⟩
  | completionTime time => exact ⟨rfl, rfl, rfl⟩

-- Of several changes to one part of an operation the last one counts.
theorem part_changed {α β : Type} (part : LoadedOperation → β) {set? : Change → Option α}
    {hold : α → β} (hstep : ∀ operation change,
      part (Change.apply operation change) = ((set? change).map hold).getD (part operation))
    (operation : LoadedOperation) (changes : List Change) :
    part (operation.changed changes) =
      ((changes.filterMap set?).getLast?.map hold).getD (part operation) :=
  part_foldl part set? hold hstep operation changes

theorem origin_changed (operation : LoadedOperation) (changes : List Change) :
    (operation.changed changes).instantTime = operation.instantTime ∧
      (operation.changed changes).action = operation.action ∧
      (operation.changed changes).pendingAction = operation.pendingAction := by
  have hstep := origin_apply
  exact ⟨kept_foldl instantTime (fun operation change => (hstep operation change).1) _ _,
    kept_foldl LoadedOperation.action (fun operation change => (hstep operation change).2.1) _ _,
    kept_foldl pendingAction (fun operation change => (hstep operation change).2.2) _ _⟩

theorem body_bare_changed (changes : List Change) (state : State) :
    ((bare time pending action).changed changes).body state = kept (lastBody changes state) := by
  have hbare : (bare time pending action).body state = none := by cases state <;> rfl
  have hlast := part_changed (fun operation => operation.body state)
    (fun operation change => body_apply operation change state) (bare time pending action) changes
  rw [hlast, hbare]
  unfold lastBody
  cases (changes.filterMap (Change.bodyOf? state)).getLast? with
  | none => rfl
  | some last => rfl

theorem completionTime_bare_changed (changes : List Change) :
    ((bare time pending action).changed changes).completionTime = lastTime? changes := by
  rw [part_changed completionTime completionTime_apply]
  unfold lastTime?
  cases (changes.filterMap Change.time?).getLast? with
  | none => rfl
  | some last => rfl

theorem fold_bare_changed (changes : List Change) :
    ((bare time pending action).changed changes).fold =
      ⟨time, (lastTime? changes).getD "", action.name, ActiveOperation.foldedVersion,
        kept (lastBody changes .completed), kept (planBody pending (lastBody changes))⟩ := by
  obtain ⟨htime, haction, hpending⟩ := origin_changed (bare time pending action) changes
  rw [fold_of_bodies (body_bare_changed changes), htime, haction, hpending,
    completionTime_bare_changed]
  rfl

-- The states whose bodies are looked at for a plan. With an inflight body, a replacing operation
-- does not ask for the requested one.
def planStates (pending : Action) (bodies : State → Bytes) : List State :=
  match pending with
  | .clean | .compaction | .logCompaction => [.requested]
  | .replaceCommit | .clustering =>
    if bodies .inflight = [] then [.inflight, .requested] else [.inflight]
  | .commit | .deltaCommit | .rollback | .savepoint => []

def consulted (pending : Action) (bodies : State → Bytes) : List State :=
  .completed :: planStates pending bodies

theorem planBody_of_planStates
    (h : ∀ state ∈ planStates pending bodies, others state = bodies state) :
    planBody pending others = planBody pending bodies := by
  have hreplacing : (∀ state ∈ if bodies .inflight = [] then [State.inflight, .requested]
      else [.inflight], others state = bodies state) →
        (if others .inflight = [] then others .requested else others .inflight) =
          if bodies .inflight = [] then bodies .requested else bodies .inflight := by
    intro hsame
    by_cases hinflight : bodies .inflight = []
    · rw [if_pos hinflight] at hsame
      rw [hsame .inflight (by decide), if_pos hinflight, if_pos hinflight]
      exact hsame .requested (by decide)
    · rw [if_neg hinflight] at hsame
      rw [hsame .inflight (by decide), if_neg hinflight, if_neg hinflight]
  cases pending with
  | clean => exact h .requested List.mem_cons_self
  | commit => rfl
  | deltaCommit => rfl
  | replaceCommit => exact hreplacing h
  | clustering => exact hreplacing h
  | rollback => rfl
  | savepoint => rfl
  | compaction => exact h .requested List.mem_cons_self
  | logCompaction => exact h .requested List.mem_cons_self

theorem planBody_requested (h : pending ∈ [.clean, .compaction, .logCompaction]) :
    planBody pending bodies = bodies .requested := by
  simp only [List.mem_cons, List.not_mem_nil, or_false] at h
  rcases h with rfl | rfl | rfl <;> rfl

-- Whatever is done to an operation, its record keeps the last completed body and the last plan, and
-- no empty ones. Two operations with the same last bodies where they are looked at, and with the
-- same last completion time, have one record.
theorem fold_changed (time : String) (pending action : Action) (changes : List Change) :
    let record := ((bare time pending action).changed changes).fold
    let bodies := lastBody changes
    record.metadata ≠ some [] ∧ record.plan ≠ some [] ∧
    record.metadata = kept (bodies .completed) ∧
    (pending ∈ [.clean, .compaction, .logCompaction] → record.plan = kept (bodies .requested)) ∧
    (pending = .replaceCommit ∨ pending = .clustering →
      record.plan = (kept (bodies .inflight)).or (kept (bodies .requested))) ∧
    (pending ∈ [.commit, .deltaCommit, .rollback, .savepoint] → record.plan = none) ∧
    ∀ others, lastTime? others = lastTime? changes →
      (∀ state ∈ consulted pending bodies, lastBody others state = bodies state) →
      ((bare time pending action).changed others).fold = record := by
  intro record bodies
  have hrecord : record = ⟨time, (lastTime? changes).getD "", action.name,
      ActiveOperation.foldedVersion, kept (bodies .completed), kept (planBody pending bodies)⟩ :=
    fold_bare_changed changes
  rw [hrecord]
  refine ⟨kept_ne_nil _, kept_ne_nil _, rfl, ?_, ?_, ?_, ?_⟩
  · intro hrequested
    rw [planBody_requested hrequested]
  · intro hreplacing
    rw [planBody_replacing hreplacing, kept_or]
  · intro hunplanned
    rw [planBody_unplanned hunplanned]
    rfl
  · intro others htime hsame
    have hcompleted : lastBody others .completed = bodies .completed :=
      hsame .completed List.mem_cons_self
    have hplan : planBody pending (lastBody others) = planBody pending bodies := by
      apply planBody_of_planStates
      intro state hstate
      exact hsame state (List.mem_cons_of_mem _ hstate)
    rw [fold_bare_changed, htime, hcompleted, hplan]

-- A clustering whose inflight body is taken back, and whose completed body is as well.
def takenBack : List Change :=
  [.body .inflight [1], .body .requested [2], .body .completed [3], .completionTime "2",
    .body .inflight [], .body .completed []]

-- The same without what does not count.
def undisturbed : List Change := [.completionTime "2", .body .requested [2]]

theorem fold_changed_takenBack :
    ((bare "1" .clustering .replaceCommit).changed takenBack).fold.metadata = none ∧
      ((bare "1" .clustering .replaceCommit).changed takenBack).fold.plan = some [2] ∧
      ((bare "1" .clustering .replaceCommit).changed undisturbed).fold =
        ((bare "1" .clustering .replaceCommit).changed takenBack).fold ∧
      ((bare "1" .compaction .commit).changed takenBack).fold.plan = some [2] ∧
      ((bare "1" .commit .commit).changed takenBack).fold.plan = none := by
  obtain ⟨_, _, hmetadata, _, hplan, _, hsame⟩ :=
    fold_changed "1" .clustering .replaceCommit takenBack
  refine ⟨hmetadata, hplan (.inr rfl), hsame undisturbed rfl (by decide), ?_, ?_⟩
  · exact (fold_changed "1" .compaction .commit takenBack).2.2.2.1 (by decide)
  · exact (fold_changed "1" .commit .commit takenBack).2.2.2.2.2.1 (by decide)

end TableHistory.LoadedOperation
