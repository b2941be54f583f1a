import TableHistory.Proofs.Entry.Agreement

namespace TableHistory.Entry

-- The slot that a live body of the action in the state is read into.
def liveSlot : Action → State → Option Slot
  | .clean, .requested => some .cleanPlan
  | .clean, .inflight => some .cleanPlan
  | .clean, .completed => some .cleanMetadata
  | .commit, .completed => some .commitMetadata
  | .deltaCommit, .completed => some .commitMetadata
  | .replaceCommit, .requested => some .requestedReplaceMetadata
  | .replaceCommit, .inflight => some .inflightReplaceMetadata
  | .replaceCommit, .completed => some .replaceCommitMetadata
  | .clustering, .requested => some .requestedReplaceMetadata
  | .clustering, .inflight => some .inflightReplaceMetadata
  | .clustering, .completed => some .replaceCommitMetadata
  | .rollback, .completed => some .rollbackMetadata
  | .savepoint, .completed => some .savepointMetadata
  | .compaction, .requested => some .compactionPlan
  | .logCompaction, .requested => some .compactionPlan
  | _, _ => none

-- Plans that an empty body stands for as well.
def emptyPlans : List (Action × State) :=
  [(.clean, .requested), (.clean, .inflight), (.compaction, .requested),
    (.logCompaction, .requested)]

-- The slots that a live body fills.
def liveSlots (action : Action) (state : State) (body : Bytes) : List Slot :=
  if body = [] ∧ (action, state) ∉ emptyPlans then [] else (liveSlot action state).toList

-- The slot that the plan of a folded operation is read into.
def planSlot : Action → Option Slot
  | .clean => some .cleanPlan
  | .commit => some .compactionPlan
  | .deltaCommit => some .compactionPlan
  | .replaceCommit => some .inflightReplaceMetadata
  | .clustering => some .inflightReplaceMetadata
  | .rollback => none
  | .savepoint => none
  | .compaction => some .compactionPlan
  | .logCompaction => some .compactionPlan

-- The slots that a plan fills. That of a replacing operation need not be inflight metadata.
def planSlots (action : Action) (plan : Bytes) : List Slot :=
  if action.replacesFiles then
    if (inflightOf plan).isSome then (planSlot action).toList else []
  else if plan = [] then [] else (planSlot action).toList

-- The slots that the bodies of a folded operation fill.
def foldedSlots (action : Action) (metadata plan : Bytes) : List Slot :=
  if metadata = [] ∧ ¬ (action = .compaction ∨ action = .logCompaction) then []
  else (liveSlot action .completed).toList ++ planSlots action plan

-- The record has this header, and payloads in these slots, which its action allows.
structure Shows (entry : Entry) (operationId : String) (state : State)
    (transitionTime : Option String) (action : Action) (slots : List Slot) : Prop where
  operationId : entry.operationId = operationId
  state : entry.state = state
  transitionTime : entry.transitionTime = transitionTime
  action : entry.action = action
  slots : entry.slots = slots
  consistent : entry.isConsistent = true

variable {config : ArchiveConfig} {reader : InstantReader} {operation : String} {state : State}
  {time : Option String} {action : Action} {slots : List Slot} {metadata plan body : Bytes}
  {entry other : Entry}

theorem shows_header :
    Shows (header operation state time action) operation state time action [] :=
  ⟨rfl, rfl, rfl, rfl, rfl, rfl⟩

theorem mem_slots (entry : Entry) (slot : Slot) : slot ∈ entry.slots ↔ entry.has slot := by
  unfold slots
  rw [List.mem_filter]
  exact and_iff_right slot.mem_all

theorem slots_insert (entry : Entry) (payload : Payload) :
    (entry.insert payload).slots =
      Slot.all.filter fun slot => slot = payload.slot ∨ slot ∈ entry.slots := by
  obtain ⟨filled, value⟩ := payload
  unfold slots
  apply List.filter_congr
  intro slot _
  have hmem := mem_slots entry slot
  unfold slots at hmem
  by_cases h : slot = filled
  · subst h
    simp [has, payload_insert]
  · have hother : (entry.insert ⟨filled, value⟩).payload slot = entry.payload slot :=
      payload_insert_of_ne entry h
    simp [has, hother, h, hmem]

-- The record with one more payload shows that payload's slot, too.
theorem Shows.insert {payload : Payload} (h : Shows entry operation state time action slots)
    (ha : action.rule.allows payload.slot = true) :
    Shows (entry.insert payload) operation state time action
      (Slot.all.filter fun slot => slot = payload.slot ∨ slot ∈ slots) where
  operationId := h.operationId
  state := h.state
  transitionTime := h.transitionTime
  action := h.action
  slots := by rw [slots_insert, h.slots]
  consistent := by
    have hold := h.consistent
    unfold isConsistent at hold ⊢
    rw [List.all_eq_true] at hold ⊢
    intro slot hm
    rw [slots_insert] at hm
    have hslot := of_decide_eq_true (List.mem_filter.mp hm).2
    rcases hslot with rfl | hslot
    · exact h.action ▸ ha
    · exact hold slot hslot

-- The first payload is the only one.
theorem Shows.insert_first {payload : Payload} (h : Shows entry operation state time action [])
    (ha : action.rule.allows payload.slot = true) :
    Shows (entry.insert payload) operation state time action [payload.slot] := by
  have hone : Slot.all.filter (fun slot => slot = payload.slot ∨ slot ∈ []) = [payload.slot] := by
    cases payload.slot <;> rfl
  rw [← hone]
  exact h.insert ha

theorem liveSlot_eq (action : Action) (state : State) :
    liveSlot action state = (action.rule.live state).map SlotRule.slot := by
  cases action <;> cases state <;> rfl

-- Live bodies are never probed, and only those of plans and completed instants are read when they
-- are empty.
theorem live_rule {rule : SlotRule} (h : action.rule.live state = some rule) :
    rule.presence ≠ .probe ∧ action.rule.allows rule.slot = true ∧
      (state ≠ .completed → (rule.presence = .always ↔ (action, state) ∈ emptyPlans)) := by
  cases action <;> cases state <;> cases h <;> decide

theorem completed_not_emptyPlans : (action, State.completed) ∉ emptyPlans := by
  cases action <;> decide

theorem ofInstant_result {instant : Instant} (hread : reader instant = .ok body) :
    (ofInstant config reader instant).result =
      if instant.state = .completed ∧ body = [] then .ok (headerOf instant)
      else ((headerOf instant).fill (sourceOf config instant.requestedTime instant.action)
        (instant.action.rule.live instant.state) body).result := by
  simp only [ofInstant, hread, Traced.result_bind, mapError_ok, Traced.result_ofExcept, ok_bind,
    Instant.isCompleted, Bool.and_eq_true, decide_eq_true_eq, List.isEmpty_iff, sourceOf]
  split
  · simp only [ofEmpty, Traced.result_bind, Traced.result_note, Traced.result_pure, ok_bind]
  · rfl

theorem ofInstant_unreadable {instant : Instant} {fault : StorageFault}
    (hread : reader instant = .error fault) :
    (ofInstant config reader instant).result = .error (.unreadableInstant instant fault) := by
  simp only [ofInstant, hread, Traced.result_bind, mapError_error, Traced.result_ofExcept,
    error_bind]

theorem exists_body {instant : Instant} (h : (ofInstant config reader instant).result = .ok entry) :
    ∃ body, reader instant = .ok body := by
  cases hread : reader instant with
  | ok body => exact ⟨body, rfl⟩
  | error fault =>
      rw [ofInstant_unreadable hread] at h
      cases h

-- Whatever is read from a live body goes to the slot of the instant's action and state.
theorem shows_ofInstant {instant : Instant} (hread : reader instant = .ok body)
    (h : (ofInstant config reader instant).result = .ok entry) :
    Shows entry instant.requestedTime instant.state instant.completionTime instant.action
      (liveSlots instant.action instant.state body) := by
  obtain ⟨requestedTime, action, state, completionTime⟩ := instant
  rw [ofInstant_result hread] at h
  have hheader : Shows (headerOf ⟨requestedTime, action, state, completionTime⟩) requestedTime state
      completionTime action [] := shows_header
  split at h
  · rename_i hempty
    obtain ⟨rfl, rfl⟩ := hempty
    have hslots : liveSlots action .completed [] = [] :=
      if_pos ⟨rfl, completed_not_emptyPlans⟩
    rw [← Except.ok.inj h]
    exact hslots ▸ hheader
  · rename_i hfull
    unfold liveSlots
    rw [liveSlot_eq]
    cases hrule : action.rule.live state with
    | none =>
        rw [hrule] at h
        rw [← Except.ok.inj h]
        simpa using hheader
    | some rule =>
        obtain ⟨hp, ha, halways⟩ := live_rule hrule
        rw [hrule] at h
        rcases fill_ok _ _ hp h with ⟨hbody, hpresence, rfl⟩ | ⟨hpresence, value, _, rfl⟩
        · have hstate : state ≠ .completed := fun hs => hfull ⟨hs, hbody⟩
          have hplan : (action, state) ∉ emptyPlans :=
            fun hm => hpresence ((halways hstate).mpr hm)
          rw [if_pos ⟨hbody, hplan⟩]
          exact hheader
        · have hnot : ¬ (body = [] ∧ (action, state) ∉ emptyPlans) := by
            rintro ⟨hbody, hplan⟩
            have hstate : state ≠ .completed := fun hs => hfull ⟨hs, hbody⟩
            exact hplan ((halways hstate).mp (hpresence hbody))
          rw [if_neg hnot, Option.map_some, Option.toList_some]
          exact hheader.insert_first ha

theorem plan_rule {rule : SlotRule} (h : action.rule.foldedPlan = some rule) :
    planSlot action = some rule.slot ∧ action.rule.allows rule.slot = true ∧
      (action.replacesFiles = true → rule = ⟨.inflightReplaceMetadata, .probe⟩) ∧
      (action.replacesFiles = false → rule.presence = .nonEmpty) := by
  cases action <;> cases h <;> decide

-- A plan that is read goes to its action's slot for plans.
theorem fill_plan (hversion : config.tableVersion.atLeast foldedFrom = true) {operation : String}
    (h : (entry.fill (sourceOf config operation action) action.rule.foldedPlan plan).result =
      .ok other) :
    (planSlots action plan = [] ∧ other = entry) ∨
      ∃ slot value, planSlots action plan = [slot] ∧ action.rule.allows slot = true ∧
        other = entry.insert ⟨slot, value⟩ := by
  cases hrule : action.rule.foldedPlan with
  | none =>
      have hnone : planSlot action = none := by cases action <;> first | rfl | cases hrule
      rw [hrule] at h
      left
      refine ⟨?_, (Except.ok.inj h).symm⟩
      unfold planSlots
      simp [hnone]
  | some rule =>
      obtain ⟨hslot, ha, hprobe, hpresence⟩ := plan_rule hrule
      by_cases hreplacing : action.replacesFiles = true
      · have haction : action = .replaceCommit ∨ action = .clustering := by
          simpa [Action.replacesFiles] using hreplacing
        obtain rfl := hprobe hreplacing
        rw [fill_replacing hversion haction] at h
        have he := (Except.ok.inj h).symm
        unfold planSlots
        simp only [hreplacing, if_true, hslot, Option.toList_some]
        cases hplan : inflightOf plan with
        | none =>
            rw [hplan] at he
            exact .inl ⟨rfl, he⟩
        | some record =>
            rw [hplan] at he
            exact .inr ⟨_, record, rfl, ha, he⟩
      · have hsome := hpresence (Bool.eq_false_iff.mpr hreplacing)
        have hp : rule.presence ≠ .probe := by rw [hsome]; decide
        rw [hrule] at h
        unfold planSlots
        simp only [hreplacing, hslot, Option.toList_some]
        rcases fill_ok _ _ hp h with ⟨hplan, _, rfl⟩ | ⟨halways, value, _, rfl⟩
        · exact .inl ⟨if_pos hplan, rfl⟩
        · have hplan : plan ≠ [] := by
            intro hempty
            rw [halways hempty] at hsome
            cases hsome
          exact .inr ⟨rule.slot, value, if_neg hplan, ha, rfl⟩

theorem completed_rule {rule : SlotRule} (h : action.rule.foldedMetadata = some rule) :
    liveSlot action .completed = some rule.slot ∧ rule.presence ≠ .probe ∧
      action.rule.allows rule.slot = true := by
  cases action <;> cases h <;> decide

-- The completed body of a folded operation goes where it would go from the live instant.
theorem shows_completed {source : BodySource}
    (hkept : metadata = [] → action.rule.foldedMetadata = none)
    (h : ((header operation .completed time action).fill source action.rule.foldedMetadata
      metadata).result = .ok entry) :
    Shows entry operation .completed time action (liveSlot action .completed).toList := by
  cases hrule : action.rule.foldedMetadata with
  | none =>
      have hnone : liveSlot action .completed = none := by
        rcases foldedMetadata_eq_none.mp hrule with rfl | rfl <;> rfl
      rw [hrule] at h
      rw [← Except.ok.inj h, hnone]
      exact shows_header
  | some rule =>
      obtain ⟨hslot, hp, ha⟩ := completed_rule hrule
      rw [hrule] at h hkept
      rcases fill_ok _ _ hp h with ⟨hempty, _, _⟩ | ⟨_, value, _, rfl⟩
      · exact absurd (hkept hempty) nofun
      · rw [hslot, Option.toList_some]
        exact shows_header.insert_first ha

-- The slot of the plan stands behind that of the completed body.
theorem filter_slots {slot : Slot} (h : planSlot action = some slot) :
    (Slot.all.filter fun other => other = slot ∨ other ∈ (liveSlot action .completed).toList) =
      (liveSlot action .completed).toList ++ [slot] := by
  cases action <;> cases h <;> decide

theorem planSlot_of_planSlots {slot : Slot} (h : planSlots action plan = [slot]) :
    planSlot action = some slot := by
  have hmem : slot ∈ planSlots action plan := by rw [h]; exact List.mem_cons_self
  unfold planSlots at hmem
  split at hmem <;> split at hmem <;> simp_all

theorem shows_ofFolded (hversion : config.tableVersion.atLeast foldedFrom = true)
    {completion : String} {version : UInt32} {metadata plan : Option Bytes}
    (h : (ofFolded config ⟨operation, completion, action.name, version, metadata, plan⟩).result =
      .ok entry) :
    Shows entry operation .completed (some completion) action
      (foldedSlots action (metadata.getD []) (plan.getD [])) := by
  unfold foldedSlots
  split
  · rename_i hempty
    rw [ofFolded_empty hversion hempty.1 hempty.2] at h
    rw [← Except.ok.inj h]
    exact shows_header
  · rename_i hfull
    have hkept : metadata.getD [] = [] → action.rule.foldedMetadata = none := by
      intro hbody
      apply foldedMetadata_eq_none.mpr
      apply Decidable.byContradiction
      intro hkind
      exact hfull ⟨hbody, hkind⟩
    rw [ofFolded_fills hversion hkept] at h
    obtain ⟨completed, hcompleted, hplan⟩ := bind_eq_ok.mp h
    have hshows := shows_completed hkept hcompleted
    rcases fill_plan hversion hplan with ⟨hnone, rfl⟩ | ⟨slot, value, hslot, ha, rfl⟩
    · rw [hnone, List.append_nil]
      exact hshows
    · rw [hslot, ← filter_slots (planSlot_of_planSlots hslot)]
      exact hshows.insert ha

-- Only tables of the folding versions have records, and only of actions that are known. Others are
-- refused before any body is looked at.
theorem ofFolded_refused_or_known (config : ArchiveConfig) (folded : FoldedOperation) :
    (ofFolded config folded).result = .error (.versionTooOld config.tableVersion foldedFrom) ∨
      (ofFolded config folded).result = .error (.unsupportedAction folded.action) ∨
      config.tableVersion.atLeast foldedFrom = true ∧ ∃ action : Action,
        action.name = folded.action := by
  unfold ofFolded
  split
  · exact .inl rfl
  · rename_i hversion
    split
    · exact .inr (.inl rfl)
    · rename_i action haction
      exact .inr (.inr ⟨by simpa using hversion, action, Action.name_of_ofName? haction⟩)

theorem ofFolded_known {folded : FoldedOperation}
    (h : (ofFolded config folded).result = .ok entry) :
    config.tableVersion.atLeast foldedFrom = true ∧ ∃ action : Action,
      action.name = folded.action := by
  rcases ofFolded_refused_or_known config folded with hold | hunknown | hknown
  · rw [hold] at h
    cases h
  · rw [hunknown] at h
    cases h
  · exact hknown

-- Without a slot for them, bodies are not read.
theorem ofInstant_unread {instant : Instant} (hread : reader instant = .ok body)
    (h : liveSlot instant.action instant.state = none) :
    (ofInstant config reader instant).result = .ok (headerOf instant) := by
  have hrule : instant.action.rule.live instant.state = none := by
    rw [liveSlot_eq] at h
    exact Option.map_eq_none_iff.mp h
  rw [ofInstant_result hread, hrule]
  split <;> rfl

-- Every record that is built has the header of what it was built from, and exactly the payloads
-- that its action, the state and the bodies call for. Live bodies that fill no slot are not read,
-- so they cannot be at fault.
theorem presence_table (config : ArchiveConfig) :
    (∀ reader instant body, reader instant = .ok body →
      (∀ entry, (ofInstant config reader instant).result = .ok entry →
        Shows entry instant.requestedTime instant.state instant.completionTime instant.action
          (liveSlots instant.action instant.state body)) ∧
      (liveSlot instant.action instant.state = none →
        (ofInstant config reader instant).result = .ok (headerOf instant))) ∧
    ∀ folded entry, (ofFolded config folded).result = .ok entry →
      ∃ action : Action, action.name = folded.action ∧
        Shows entry folded.instantTime .completed (some folded.completionTime) action
          (foldedSlots action (folded.metadata.getD []) (folded.plan.getD [])) := by
  constructor
  · intro reader instant body hread
    constructor
    · intro entry h
      exact shows_ofInstant hread h
    · intro hnone
      exact ofInstant_unread hread hnone
  · intro folded entry h
    obtain ⟨hversion, action, haction⟩ := ofFolded_known h
    refine ⟨action, haction, ?_⟩
    obtain ⟨operation, completion, name, version, metadata, plan⟩ := folded
    obtain rfl := haction
    exact shows_ofFolded hversion h

-- Clustering, inflight and folded with a plan that is no commit metadata.
theorem presence_table_clustering :
    (∃ entry, (ofInstant {} (fun _ => .ok Framed.header)
        ⟨"1", .clustering, .inflight, none⟩).result = .ok entry ∧
        entry.slots = [.inflightReplaceMetadata]) ∧
      ∃ entry, (ofFolded {} ⟨"1", "2", "clustering", 1, some Framed.header, some [0]⟩).result =
        .ok entry ∧ entry.slots = [.replaceCommitMetadata] := by
  constructor
  · have hlive := ((presence_table {}).1 (fun _ => .ok Framed.header)
      ⟨"1", .clustering, .inflight, none⟩ _ rfl).1 _ rfl
    exact ⟨_, rfl, hlive.slots⟩
  · obtain ⟨action, haction, hfolded⟩ := (presence_table {}).2
      ⟨"1", "2", "clustering", 1, some Framed.header, some [0]⟩ _ rfl
    have hclustering : action = .clustering := by
      cases action <;> first | rfl | exact absurd haction (by decide)
    subst hclustering
    exact ⟨_, rfl, hfolded.slots⟩

end TableHistory.Entry
