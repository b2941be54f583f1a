import TableHistory.Proofs.Entry.Agreement
import TableHistory.Proofs.Operation.Loading
import TableHistory.Proofs.Record.Structured

namespace TableHistory

-- The actions that an operation completes as when it was requested as this one.
def Action.completions : Action → List Action
  | compaction => [commit]
  | logCompaction => [deltaCommit]
  | clustering => [clustering, replaceCommit]
  | action => [action]

theorem Action.not_compacting {pending action : Action} (h : action ∈ pending.completions) :
    ¬ (action = .compaction ∨ action = .logCompaction) := by
  cases pending <;> cases action <;> simp_all [completions]

theorem Action.replacing_of_completions {pending action : Action}
    (h : action ∈ pending.completions) (hp : pending = .replaceCommit ∨ pending = .clustering) :
    action = .replaceCommit ∨ action = .clustering := by
  rcases hp with rfl | rfl <;> cases action <;> simp_all [completions]

namespace LoadedOperation

open Entry

variable {config : ArchiveConfig} {reader : InstantReader} {instants : List Instant}
  {bodies : State → Bytes} {time completion : String} {pending action : Action}

-- The body that an operation pending as the action plans with.
def planBody (pending : Action) (bodies : State → Bytes) : Bytes :=
  match pending with
  | .clean | .compaction | .logCompaction => bodies .requested
  | .replaceCommit | .clustering =>
    if bodies .inflight = [] then bodies .requested else bodies .inflight
  | .commit | .deltaCommit | .rollback | .savepoint => []

theorem planBody_nil (pending : Action) (hr : bodies .requested = []) (hi : bodies .inflight = []) :
    planBody pending bodies = [] := by
  cases pending <;> simp [planBody, hr, hi]

theorem planBody_replacing (h : pending = .replaceCommit ∨ pending = .clustering) :
    planBody pending bodies =
      if bodies .inflight = [] then bodies .requested else bodies .inflight := by
  rcases h with rfl | rfl <;> rfl

theorem planBody_unplanned (h : pending ∈ [.commit, .deltaCommit, .rollback, .savepoint]) :
    planBody pending bodies = [] := by
  simp only [List.mem_cons, List.not_mem_nil, or_false] at h
  rcases h with rfl | rfl | rfl | rfl <;> rfl

-- The compact record has the completed body and the plan, if there is one.
theorem fold_of_bodies {operation : LoadedOperation}
    (hbody : ∀ state, operation.body state = kept (bodies state)) :
    operation.fold = ⟨operation.instantTime, operation.completionTime.getD "",
      operation.action.name, ActiveOperation.foldedVersion, kept (bodies .completed),
      kept (planBody operation.pendingAction bodies)⟩ := by
  obtain ⟨_, _, _, pending, requested, inflight, completed⟩ := operation
  have hr : requested = kept (bodies .requested) := hbody .requested
  have hi : inflight = kept (bodies .inflight) := hbody .inflight
  have hc : completed = kept (bodies .completed) := hbody .completed
  subst hr hi hc
  have hplan : (kept (bodies .inflight)).or (kept (bodies .requested)) =
      kept (if bodies .inflight = [] then bodies .requested else bodies .inflight) :=
    kept_or _ _
  cases pending with
  | clean => rfl
  | commit => rfl
  | deltaCommit => rfl
  | replaceCommit => exact congrArg (FoldedOperation.mk _ _ _ _ _) hplan
  | clustering => exact congrArg (FoldedOperation.mk _ _ _ _ _) hplan
  | rollback => rfl
  | savepoint => rfl
  | compaction => rfl
  | logCompaction => rfl

theorem fold_eq {operation : LoadedOperation} {shown : Action}
    (hheading : operation.heading = (time, some completion, action, shown))
    (hbody : ∀ state, operation.body state = kept (bodies state)) :
    ∃ plan, operation.fold = ⟨time, completion, action.name, ActiveOperation.foldedVersion,
        kept (bodies .completed), plan⟩ ∧ plan.getD [] = planBody shown bodies := by
  simp only [heading, Prod.mk.injEq] at hheading
  obtain ⟨htime, hcompletion, haction, hshown⟩ := hheading
  refine ⟨kept (planBody shown bodies), ?_, kept_getD _⟩
  rw [fold_of_bodies hbody, htime, hcompletion, haction, hshown, Option.getD_some]

-- Pending actions whose requested body is the plan, with the slot that it fills.
def requestedPlans : List (Action × Slot) :=
  [(.clean, .cleanPlan), (.compaction, .compactionPlan), (.logCompaction, .compactionPlan)]

theorem planned_of_requested {slot : Slot} (h : (pending, slot) ∈ requestedPlans)
    (haction : action ∈ pending.completions) :
    (action, slot) ∈ plannedSlots ∧ planBody pending bodies = bodies .requested := by
  simp only [requestedPlans, List.mem_cons, Prod.mk.injEq, List.not_mem_nil, or_false] at h
  rcases h with ⟨rfl, rfl⟩ | ⟨rfl, rfl⟩ | ⟨rfl, rfl⟩ <;>
    exact ⟨by rw [List.mem_singleton.mp haction]; decide, rfl⟩

-- A requested body is read for the same slot as the plan made of it.
theorem ofInstant_requested {instant : Instant} {slot : Slot} {bytes : Bytes}
    (h : (instant.action, slot) ∈ requestedPlans) (hstate : instant.state = .requested)
    (hread : reader instant = .ok bytes) (hne : bytes ≠ []) :
    (ofInstant config reader instant).result =
      ((Framed.read slot.message bytes).mapError
        (.payload instant.requestedTime instant.action slot)).map fun value =>
          (headerOf instant).insert ⟨slot, value⟩ := by
  obtain ⟨time, pending, _, completion⟩ := instant
  subst hstate
  have hbody : bytes.isEmpty = false := by simpa using hne
  have hrule : pending.rule.requested = some ⟨slot, .always⟩ ∧
      (sourceOf config time pending).readSlot bytes slot =
        (sourceOf config time pending).readRecord slot bytes := by
    simp only [requestedPlans, List.mem_cons, Prod.mk.injEq, List.not_mem_nil, or_false] at h
    rcases h with ⟨rfl, rfl⟩ | ⟨rfl, rfl⟩ | ⟨rfl, rfl⟩ <;> exact ⟨rfl, rfl⟩
  have hfill : (ofInstant config reader ⟨time, pending, .requested, completion⟩).result =
      ((headerOf ⟨time, pending, .requested, completion⟩).fill (sourceOf config time pending)
        (some ⟨slot, .always⟩) bytes).result := by
    simp only [ofInstant, hread, Traced.result_bind, mapError_ok, Traced.result_ofExcept,
      ok_bind, hbody, Bool.and_false, Bool.false_eq_true, if_false, Rule.live, hrule.1]
    rfl
  rw [hfill, fill_always, hrule.2, BodySource.readRecord_of_ne_nil _ _ hne]
  rfl

-- A plan adds the payload of the requested instant, or fails where that does.
theorem fill_requested {instant : Instant} {slot : Slot} {bytes : Bytes}
    (h : (instant.action, slot) ∈ requestedPlans) (hstate : instant.state = .requested)
    (hread : reader instant = .ok bytes) (hne : bytes ≠ [])
    (hplanned : (action, slot) ∈ plannedSlots) (entry : Entry) :
    (∀ planned, (ofInstant config reader instant).result = .ok planned →
      ∃ other, (entry.fill (sourceOf config time action) action.rule.foldedPlan bytes).result =
          .ok other ∧ AgreeBut slot entry other ∧ other.payload slot = planned.payload slot) ∧
    ∀ fault, (ofInstant config reader instant).result = .error fault →
      ∃ cause, fault = .payload instant.requestedTime instant.action slot cause ∧
        (entry.fill (sourceOf config time action) action.rule.foldedPlan bytes).result =
          .error (.payload time action slot cause) := by
  rw [ofInstant_requested h hstate hread hne]
  cases hvalue : Framed.read slot.message bytes with
  | error cause =>
      simp only [mapError_error, Except.map]
      constructor
      · intro planned hinsert
        cases hinsert
      · intro fault hfault
        refine ⟨cause, (Except.error.inj hfault).symm, ?_⟩
        exact fill_planned_error hplanned entry hne hvalue
  | ok value =>
      simp only [mapError_ok, Except.map]
      constructor
      · intro planned hinsert
        obtain rfl : (headerOf instant).insert ⟨slot, value⟩ = planned := Except.ok.inj hinsert
        obtain ⟨other, hother, hagree, hpayload⟩ := fill_planned_ok hplanned entry hne hvalue
        have hplan := (headerOf instant).payload_insert slot value
        exact ⟨other, hother, hagree, hpayload.trans hplan.symm⟩
      · intro fault hfault
        cases hfault

-- The framed record that the archive keeps of an operation's instants.
def foldedBytes (reader : InstantReader) (instants : List Instant) : Except ArchiveFault Bytes :=
  (load reader instants).map fun operation => Framed.write FoldedOperation.message operation.fold

theorem foldedBytes_eq (hinstants : Instants time completion pending action instants)
    (hbodies : Holds reader instants bodies) :
    ∃ plan, plan.getD [] = planBody pending bodies ∧
      foldedBytes reader instants = .ok (Framed.write FoldedOperation.message
        ⟨time, completion, action.name, ActiveOperation.foldedVersion,
          kept (bodies .completed), plan⟩) := by
  obtain ⟨operation, hload, ⟨shown, hheading, hshown⟩, hbody⟩ := load_ok hinstants hbodies
  obtain ⟨plan, hfold, hplan⟩ := fold_eq hheading hbody
  refine ⟨plan, ?_, ?_⟩
  · rw [hplan]
    rcases hshown with rfl | ⟨hr, hi⟩
    · rfl
    · rw [planBody_nil shown hr hi, planBody_nil pending hr hi]
  · unfold foldedBytes
    rw [hload, ← hfold]
    rfl

-- The requested body of an operation that plans with it, as a plan.
theorem fill_planBody {slot : Slot} (hslot : (pending, slot) ∈ requestedPlans)
    (haction : action ∈ pending.completions)
    (hinstants : Instants time completion pending action instants)
    (hbodies : Holds reader instants bodies) (entry : Entry) :
    let filled := (entry.fill (sourceOf config time action) action.rule.foldedPlan
      (planBody pending bodies)).result
    (bodies .requested = [] → filled = .ok entry) ∧
    (bodies .requested ≠ [] → ∃ requested ∈ instants, requested.state = .requested ∧
      (∀ planned, (ofInstant config reader requested).result = .ok planned →
        ∃ other, filled = .ok other ∧ AgreeBut slot entry other ∧
          other.payload slot = planned.payload slot) ∧
      ∀ fault, (ofInstant config reader requested).result = .error fault →
        ∃ cause, fault = .payload time pending slot cause ∧
          filled = .error (.payload time action slot cause)) := by
  intro filled
  obtain ⟨hplanned, hbody⟩ : (action, slot) ∈ plannedSlots ∧
    planBody pending bodies = bodies .requested := planned_of_requested hslot haction
  have hfilled : filled = (entry.fill (sourceOf config time action) action.rule.foldedPlan
      (bodies .requested)).result := by
    rw [← hbody]
  rw [hfilled]
  constructor
  · intro hempty
    rw [hempty, fill_foldedPlan_nil]
  · intro hrequested
    obtain ⟨requested, hmem, hstate⟩ := hbodies.exists_instant hrequested
    have hread : reader requested = .ok (bodies .requested) := by
      rw [hbodies.read requested hmem, hstate]
    have htime := hinstants.requestedTime_eq hmem
    have hpending : requested.action = pending := by
      apply hinstants.action_eq hmem
      rw [hstate]
      decide
    refine ⟨requested, hmem, hstate, ?_⟩
    rw [← hpending] at hslot
    rw [← htime, ← hpending]
    exact fill_requested hslot hstate hread hrequested hplanned entry

-- An operation that is folded, archived and read back says what its completed instant says, and
-- fails where that does. A plan adds what the requested instant says, or fails where that does. The
-- plan of a replacing operation is its inflight body, or else its requested one, and is left out
-- unless it is commit metadata. Lengths are varints, so records from 2 ^ 64 bytes on are left out.
theorem ofFolded_foldedBytes (config : ArchiveConfig) (reader : InstantReader)
    (pending action : Action) (time completion : String) (instants : List Instant)
    (bodies : State → Bytes) (hversion : config.tableVersion.atLeast foldedFrom = true)
    (haction : action ∈ pending.completions)
    (hinstants : Instants time completion pending action instants)
    (hbodies : Holds reader instants bodies)
    (hsize : ∀ bytes, foldedBytes reader instants = .ok bytes → bytes.length < 2 ^ 64) :
    ∃ bytes folded, foldedBytes reader instants = .ok bytes ∧
      Framed.read FoldedOperation.message bytes = .ok folded ∧
      let completed : Instant := ⟨time, action, .completed, some completion⟩
      let live := (ofInstant config reader completed).result
      let archived := (ofFolded config folded).result
      (bodies .completed = [] →
        live = .ok (headerOf completed) ∧ archived = .ok (headerOf completed)) ∧
      (∀ fault, live = .error fault → archived = .error fault) ∧
      (bodies .completed ≠ [] → ∀ entry, live = .ok entry →
        (∀ slot, (pending, slot) ∈ requestedPlans →
          (bodies .requested = [] → archived = .ok entry) ∧
          (bodies .requested ≠ [] → ∃ requested ∈ instants, requested.state = .requested ∧
            (∀ planned, (ofInstant config reader requested).result = .ok planned →
              ∃ other, archived = .ok other ∧ AgreeBut slot entry other ∧
                other.payload slot = planned.payload slot) ∧
            ∀ fault, (ofInstant config reader requested).result = .error fault →
              ∃ cause, fault = .payload time pending slot cause ∧
                archived = .error (.payload time action slot cause))) ∧
        (pending = .replaceCommit ∨ pending = .clustering →
          ∃ other, archived = .ok other ∧ AgreeBut .inflightReplaceMetadata entry other ∧
            other.payload .inflightReplaceMetadata =
              inflightOf (if bodies .inflight = [] then bodies .requested
                else bodies .inflight)) ∧
        (pending ∈ [.commit, .deltaCommit, .rollback, .savepoint] → archived = .ok entry)) := by
  obtain ⟨plan, hplan, hbytes⟩ := foldedBytes_eq hinstants hbodies
  have hlength := Framed.length_write_lt (hsize _ hbytes)
  refine ⟨_, _, hbytes, Framed.read_write (FoldedOperation.restores _) _ hlength, ?_⟩
  intro completed live archived
  have hcompleted := kept_getD (bodies .completed)
  have hread : reader completed = .ok ((kept (bodies .completed)).getD []) := by
    rw [hcompleted]
    exact hbodies.read completed hinstants.completed
  refine ⟨?_, ?_, ?_⟩
  · intro hempty
    rw [← hcompleted] at hempty
    constructor
    · exact (ofInstant_completed hread).trans (if_pos hempty)
    · exact ofFolded_empty hversion hempty (Action.not_compacting haction)
  · intro fault hfault
    exact ofFolded_error hversion hread hfault
  · intro hne entry hlive
    rw [← hcompleted] at hne
    have harchived : archived = (entry.fill (sourceOf config time action) action.rule.foldedPlan
        (planBody pending bodies)).result := by
      rw [← hplan]
      exact ofFolded_ok hversion hread (absurd · hne) hlive
    rw [harchived]
    refine ⟨?_, ?_, ?_⟩
    · intro slot hslot
      exact fill_planBody hslot haction hinstants hbodies entry
    · intro hreplacing
      rw [planBody_replacing hreplacing]
      apply fill_replacing_agrees hversion _ hread hlive
      exact Action.replacing_of_completions haction hreplacing
    · intro hplain
      rw [planBody_unplanned hplain, fill_foldedPlan_nil]

-- A compaction whose requested body is no plan, and whose commit says nothing.
def unplanned : List Instant :=
  [⟨"1", .compaction, .requested, none⟩, ⟨"1", .commit, .completed, some "2"⟩]

def unplannedBodies : State → Bytes
  | .requested => [0]
  | .inflight => []
  | .completed => Framed.write CommitRecord.message {}

theorem ofFolded_foldedBytes_unplanned :
    Action.commit ∈ Action.compaction.completions ∧
      Instants "1" "2" .compaction .commit unplanned ∧
      ∃ bytes folded,
        foldedBytes (fun instant => .ok (unplannedBodies instant.state)) unplanned = .ok bytes ∧
        Framed.read FoldedOperation.message bytes = .ok folded ∧
        (ofFolded {} folded).result =
          .error (.payload "1" .commit .compactionPlan (.missingHeader 1)) := by
  have hinstants : Instants "1" "2" .compaction .commit unplanned :=
    ⟨by decide, by decide⟩
  have hbodies : Holds (fun instant => .ok (unplannedBodies instant.state)) unplanned
      unplannedBodies := by
    refine ⟨fun _ _ => rfl, fun state h => ?_⟩
    cases state with
    | requested => exact absurd rfl (h _ List.mem_cons_self)
    | inflight => rfl
    | completed => exact absurd rfl (h _ (List.mem_cons_of_mem _ List.mem_cons_self))
  obtain ⟨bytes, folded, hbytes, hread, hagrees⟩ := ofFolded_foldedBytes {} _ .compaction .commit
    "1" "2" unplanned unplannedBodies (by decide) (by decide) hinstants hbodies
    fun bytes h => by
      obtain rfl := Except.ok.inj h
      decide
  refine ⟨by decide, hinstants, bytes, folded, hbytes, hread, ?_⟩
  obtain ⟨requested, hmem, hstate, _, hfault⟩ :=
    ((hagrees.2.2 (by decide) _ rfl).1 .compactionPlan (by decide)).2 (by decide)
  rcases List.mem_cons.mp hmem with rfl | hmem
  · obtain ⟨cause, hcause, hresult⟩ :=
      hfault (.payload "1" .compaction .compactionPlan (.missingHeader 1)) rfl
    obtain rfl : DecodeFault.missingHeader 1 = cause := (ArchiveFault.payload.inj hcause).2.2.2
    exact hresult
  · obtain rfl := List.mem_singleton.mp hmem
    cases hstate

end LoadedOperation

end TableHistory
