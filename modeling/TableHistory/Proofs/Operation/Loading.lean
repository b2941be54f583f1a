import TableHistory.Operation.Active
import TableHistory.Proofs.Result
import Mathlib.Tactic.ByContra

namespace TableHistory.LoadedOperation

variable {reader : InstantReader} {instants : List Instant} {bodies : State → Bytes}
  {time completion : String} {pending action : Action}

-- The body that is kept of a state.
def body (operation : LoadedOperation) : State → Option Bytes
  | .requested => operation.requested
  | .inflight => operation.inflight
  | .completed => operation.completed

-- No empty body is kept.
def kept (body : Bytes) : Option Bytes := if body.isEmpty then none else some body

@[simp] theorem kept_getD (body : Bytes) : (kept body).getD [] = body := by
  cases body <;> rfl

theorem kept_or (first second : Bytes) :
    (kept first).or (kept second) = kept (if first = [] then second else first) := by
  cases first with
  | nil => rfl
  | cons byte first => rfl

theorem kept_ne_nil (body : Bytes) : kept body ≠ some [] := by
  cases body with
  | nil => nofun
  | cons byte body => nofun

theorem body_withBody (operation : LoadedOperation) (state other : State) (bytes : Bytes) :
    (operation.withBody state bytes).body other =
      if other = state then kept bytes else operation.body other := by
  cases state <;> cases other <;> rfl

-- Everything about the operation but its bodies.
def heading (operation : LoadedOperation) : String × Option String × Action × Action :=
  (operation.instantTime, operation.completionTime, operation.action, operation.pendingAction)

theorem heading_withBody (operation : LoadedOperation) (state : State) (bytes : Bytes) :
    (operation.withBody state bytes).heading = operation.heading := by
  cases state <;> rfl

theorem readBodies_ok (h : ∀ instant ∈ instants, reader instant = .ok (bodies instant.state))
    (operation : LoadedOperation) :
    ∃ loaded, readBodies reader operation instants = .ok loaded ∧
      loaded.heading = operation.heading ∧
      ∀ state, loaded.body state =
        if ∃ instant ∈ instants, instant.state = state then kept (bodies state)
        else operation.body state := by
  induction instants generalizing operation with
  | nil => exact ⟨operation, rfl, rfl, fun state => by simp⟩
  | cons instant rest ih =>
      have hrest : ∀ other ∈ rest, reader other = .ok (bodies other.state) :=
        fun other ho => h other (List.mem_cons_of_mem _ ho)
      obtain ⟨loaded, hload, hheading, hbody⟩ :=
        ih hrest (operation.withBody instant.state (bodies instant.state))
      refine ⟨loaded, ?_, ?_, ?_⟩
      · have hread := h instant List.mem_cons_self
        simp only [readBodies, hread, hload]
      · rw [hheading, heading_withBody]
      · intro state
        rw [hbody, body_withBody]
        by_cases hlater : ∃ other ∈ rest, other.state = state
        · obtain ⟨other, ho, rfl⟩ := hlater
          rw [if_pos ⟨other, ho, rfl⟩, if_pos ⟨other, List.mem_cons_of_mem _ ho, rfl⟩]
        · by_cases hnow : state = instant.state
          · subst hnow
            rw [if_neg hlater, if_pos rfl, if_pos ⟨instant, List.mem_cons_self, rfl⟩]
          · have hnone : ¬ ∃ other ∈ instant :: rest, other.state = state := by
              rintro ⟨other, ho, rfl⟩
              rcases List.mem_cons.mp ho with rfl | ho
              · exact hnow rfl
              · exact hlater ⟨other, ho, rfl⟩
            rw [if_neg hlater, if_neg hnow, if_neg hnone]

-- The instants of one operation in any order. It was requested as one action and completed as
-- another, and pending instants may be left out.
structure Instants (time completion : String) (pending action : Action)
    (instants : List Instant) : Prop where
  completed : ⟨time, action, .completed, some completion⟩ ∈ instants
  pending : ∀ instant ∈ instants, instant = ⟨time, action, .completed, some completion⟩ ∨
    instant.requestedTime = time ∧ instant.action = pending ∧ instant.state ≠ .completed

-- The reader has these bodies, and none of a state that is left out.
structure Holds (reader : InstantReader) (instants : List Instant) (bodies : State → Bytes) :
    Prop where
  read : ∀ instant ∈ instants, reader instant = .ok (bodies instant.state)
  missing : ∀ state, (∀ instant ∈ instants, instant.state ≠ state) → bodies state = []

-- What the two searches of a list of instants find, and when they find nothing.
theorem state_of_find_pending {found : Instant}
    (h : (instants.find? fun instant => !instant.isCompleted) = some found) :
    found.state ≠ .completed := by
  simpa [Instant.isCompleted] using List.find?_some h

theorem state_of_find_completed {found : Instant}
    (h : instants.find? Instant.isCompleted = some found) : found.state = .completed := by
  simpa [Instant.isCompleted] using List.find?_some h

theorem find_pending_eq_none :
    (instants.find? fun instant => !instant.isCompleted) = none ↔
      ∀ instant ∈ instants, instant.state = .completed := by
  simp [Instant.isCompleted]

theorem find_completed_eq_none :
    instants.find? Instant.isCompleted = none ↔
      ∀ instant ∈ instants, instant.state ≠ .completed := by
  simp [Instant.isCompleted]

theorem Instants.find_completed (h : Instants time completion pending action instants) :
    instants.find? Instant.isCompleted = some ⟨time, action, .completed, some completion⟩ := by
  obtain ⟨found, hfound⟩ : ∃ found, instants.find? Instant.isCompleted = some found :=
    Option.isSome_iff_exists.mp (List.find?_isSome.mpr ⟨_, h.completed, rfl⟩)
  rcases h.pending found (List.mem_of_find?_eq_some hfound) with rfl | ⟨_, _, hne⟩
  · exact hfound
  · exact absurd (state_of_find_completed hfound) hne

theorem Instants.requestedTime_eq (h : Instants time completion pending action instants)
    {instant : Instant} (hm : instant ∈ instants) : instant.requestedTime = time := by
  rcases h.pending instant hm with rfl | ⟨ht, _⟩
  · rfl
  · exact ht

theorem Instants.action_eq (h : Instants time completion pending action instants)
    {instant : Instant} (hm : instant ∈ instants) (hs : instant.state ≠ .completed) :
    instant.action = pending := by
  rcases h.pending instant hm with rfl | ⟨_, ha, _⟩
  · exact absurd rfl hs
  · exact ha

-- A body that is not empty is that of some instant.
theorem Holds.exists_instant (h : Holds reader instants bodies) {state : State}
    (hne : bodies state ≠ []) : ∃ instant ∈ instants, instant.state = state := by
  by_contra hnone
  apply hne
  apply h.missing
  intro instant hm hstate
  exact hnone ⟨instant, hm, hstate⟩

-- The action the operation is taken to be pending as is the pending one, unless nothing of it is
-- left.
theorem ofInstants_heading {first : Instant} {rest : List Instant}
    (h : Instants time completion pending action (first :: rest)) :
    ∃ shown, (ofInstants first rest).heading = (time, some completion, action, shown) ∧
      (shown = pending ∨ ∀ instant ∈ first :: rest, instant.state = .completed) := by
  refine ⟨(ofInstants first rest).pendingAction, ?_, ?_⟩
  · simp only [heading, ofInstants, h.find_completed, h.requestedTime_eq List.mem_cons_self,
      Option.bind_some, Option.getD_some]
  · cases hfind : (first :: rest).find? fun instant => !instant.isCompleted with
    | none => exact .inr (find_pending_eq_none.mp hfind)
    | some found =>
        left
        have haction := h.action_eq (List.mem_of_find?_eq_some hfind) (state_of_find_pending hfind)
        simp only [ofInstants, hfind, Option.getD_some, haction]

theorem load_ok (hinstants : Instants time completion pending action instants)
    (hbodies : Holds reader instants bodies) :
    ∃ operation, load reader instants = .ok operation ∧
      (∃ shown, operation.heading = (time, some completion, action, shown) ∧
        (shown = pending ∨ bodies .requested = [] ∧ bodies .inflight = [])) ∧
      ∀ state, operation.body state = kept (bodies state) := by
  cases instants with
  | nil => exact absurd hinstants.completed List.not_mem_nil
  | cons first rest =>
      obtain ⟨shown, hshown, hpending⟩ := ofInstants_heading hinstants
      obtain ⟨operation, hload, hheading, hbody⟩ :=
        readBodies_ok hbodies.read (ofInstants first rest)
      refine ⟨operation, hload, ⟨shown, hheading.trans hshown, ?_⟩, ?_⟩
      · apply hpending.imp id
        intro hall
        have hmissing : ∀ state, state ≠ .completed → bodies state = [] := by
          intro state hstate
          apply hbodies.missing
          intro instant hm
          rw [hall instant hm]
          exact hstate.symm
        exact ⟨hmissing .requested nofun, hmissing .inflight nofun⟩
      · intro state
        rw [hbody]
        by_cases hstate : ∃ instant ∈ first :: rest, instant.state = state
        · rw [if_pos hstate]
        · have hmissing : bodies state = [] := by
            by_contra hne
            exact hstate (hbodies.exists_instant hne)
          rw [if_neg hstate, hmissing]
          cases state <;> rfl

end TableHistory.LoadedOperation
