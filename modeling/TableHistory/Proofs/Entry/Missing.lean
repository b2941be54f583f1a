import TableHistory.Proofs.Entry.Presence

namespace TableHistory

namespace BodySource

variable (source : BodySource) {body : Bytes} {slot : Slot} {fault : ArchiveFault}

-- The fault of a body that is no payload of the slot.
def Unreadable (slot : Slot) (fault : ArchiveFault) : Prop :=
  (∃ cause, fault = .commitMetadata source.operation source.action cause) ∨
    ∃ cause, fault = .payload source.operation source.action slot cause

theorem readCommit_error {decoded : Traced CommitFault Metadata}
    (h : (source.readCommit decoded).result = .error fault) :
    ∃ cause, fault = .commitMetadata source.operation source.action cause := by
  rw [source.readCommit_result, map_eq_error, mapError_eq_error] at h
  obtain ⟨cause, _, rfl⟩ := h
  exact ⟨cause, rfl⟩

theorem readRecord_error (h : (source.readRecord slot body).result = .error fault) :
    ∃ cause, fault = .payload source.operation source.action slot cause := by
  unfold readRecord at h
  rw [Traced.result_ofExcept] at h
  obtain ⟨cause, _, rfl⟩ := mapError_eq_error.mp h
  exact ⟨cause, rfl⟩

-- Commit metadata has a fault of its own, and all other payloads share one.
theorem readSlot_error (h : (source.readSlot body slot).result = .error fault) :
    source.Unreadable slot fault := by
  have hcommit : ∀ {α : Type} {decoded : Traced CommitFault Metadata} {part : CommitBody → α},
      (do return part (← source.readCommit decoded) : Traced ArchiveFault α).result =
        .error fault → source.Unreadable slot fault := by
    intro α decoded part hread
    rw [Traced.result_bind] at hread
    rcases bind_eq_error.mp hread with hread | ⟨record, _, hpart⟩
    · exact .inl (source.readCommit_error hread)
    · cases hpart
  cases slot with
  | commitMetadata => exact hcommit h
  | replaceCommitMetadata => exact hcommit h
  | inflightReplaceMetadata => exact hcommit h
  | cleanMetadata => exact .inr (source.readRecord_error h)
  | cleanPlan => exact .inr (source.readRecord_error h)
  | requestedReplaceMetadata => exact .inr (source.readRecord_error h)
  | rollbackMetadata => exact .inr (source.readRecord_error h)
  | savepointMetadata => exact .inr (source.readRecord_error h)
  | compactionPlan => exact .inr (source.readRecord_error h)

theorem read_required_nil (slot : Slot) :
    (source.read ⟨slot, .required⟩ []).result =
      .error (.missingPayload source.operation source.action slot) := rfl

end BodySource

namespace Entry

variable {config : ArchiveConfig} {reader : InstantReader} {action : Action} {state : State}
  {body : Bytes} {fault : ArchiveFault}

-- All that filling can report: a body that cannot be read, and one that is required and empty.
theorem fill_error {entry : Entry} {source : BodySource} {rule : Option SlotRule}
    (h : (entry.fill source rule body).result = .error fault) :
    ∃ slotRule ∈ rule, source.Unreadable slotRule.slot fault ∨
      slotRule.presence = .required ∧ body = [] := by
  cases rule with
  | none => cases h
  | some slotRule =>
      refine ⟨slotRule, rfl, ?_⟩
      obtain ⟨slot, presence⟩ := slotRule
      by_cases hprobe : presence = .probe
      · subst hprobe
        rw [fill_probe] at h
        cases h
      · by_cases hbody : body = []
        · subst hbody
          cases presence with
          | always =>
              rw [fill_always, map_eq_error] at h
              exact .inl (source.readSlot_error h)
          | nonEmpty => cases h
          | required => exact .inr ⟨rfl, rfl⟩
          | probe => exact absurd rfl hprobe
        · rw [fill_of_ne_nil entry source hprobe hbody, map_eq_error] at h
          exact .inl (source.readSlot_error h)

-- So a fill reports a missing payload for an empty body under a rule that requires one.
theorem fill_missing {entry : Entry} {source : BodySource} {rule : Option SlotRule}
    {operation : String} {slot : Slot}
    (h : (entry.fill source rule body).result = .error (.missingPayload operation action slot)) :
    body = [] ∧ ∃ slotRule ∈ rule, slotRule.presence = .required := by
  obtain ⟨slotRule, hrule, hunread | ⟨hpresence, hbody⟩⟩ := fill_error h
  · rcases hunread with ⟨cause, hcause⟩ | ⟨cause, hcause⟩
    · cases hcause
    · cases hcause
  · exact ⟨hbody, slotRule, hrule, hpresence⟩

-- Pending bodies are never required.
theorem completed_of_required {rule : SlotRule} (h : rule ∈ action.rule.live state)
    (hpresence : rule.presence = .required) : state = .completed := by
  cases action <;> cases state <;> cases h <;> first | rfl | cases hpresence

-- Neither are plans.
theorem plan_not_required {rule : SlotRule} (h : rule ∈ action.rule.foldedPlan) :
    rule.presence ≠ .required := by
  cases action <;> cases h <;> decide

variable {operation : String} {slot : Slot}

theorem ofInstant_not_missing (instant : Instant) :
    (ofInstant config reader instant).result ≠ .error (.missingPayload operation action slot) := by
  intro h
  cases hread : reader instant with
  | error cause =>
      rw [ofInstant_unreadable hread] at h
      cases h
  | ok body =>
      rw [ofInstant_result hread] at h
      split at h
      · cases h
      · rename_i hfull
        obtain ⟨hbody, rule, hrule, hpresence⟩ := fill_missing h
        exact hfull ⟨completed_of_required hrule hpresence, hbody⟩

-- All that a folded operation can be refused for: the version of the table, its action, and one of
-- the bodies that fill its record. A completed body that is missing fills nothing.
theorem ofFolded_fault {folded : FoldedOperation}
    (h : (ofFolded config folded).result = .error fault) :
    (config.tableVersion.atLeast foldedFrom = false ∧
        fault = .versionTooOld config.tableVersion foldedFrom) ∨
      fault = .unsupportedAction folded.action ∨
      ∃ (known : Action) (source : BodySource) (entry : Entry),
        ¬ (folded.metadata.getD [] = [] ∧ known.rule.foldedMetadata.isSome = true) ∧
          (entry.fill source known.rule.foldedMetadata (folded.metadata.getD [])).result =
            .error fault ∨
        (entry.fill source known.rule.foldedPlan (folded.plan.getD [])).result = .error fault := by
  cases hversion : config.tableVersion.atLeast foldedFrom with
  | false =>
      simp only [ofFolded, hversion, Bool.not_false, if_true] at h
      exact .inl ⟨rfl, (Except.error.inj h).symm⟩
  | true =>
      cases hname : Action.ofName? folded.action with
      | none =>
          simp only [ofFolded, hversion, hname, Bool.not_true, Bool.false_eq_true, if_false] at h
          exact .inr (.inl (Except.error.inj h).symm)
      | some known =>
          obtain ⟨time, completion, name, version, metadata, plan⟩ := folded
          obtain rfl : known.name = name := Action.name_of_ofName? hname
          rw [ofFolded_result hversion] at h
          split at h
          · cases h
          · rename_i hfull
            refine .inr (.inr ⟨known, sourceOf config time known, ?_⟩)
            rcases bind_eq_error.mp h with hmetadata | ⟨entry, _, hplan⟩
            · exact ⟨_, .inl ⟨fun hmissing => hfull ⟨hmissing.1, .inr hmissing.2⟩, hmetadata⟩⟩
            · exact ⟨entry, .inr hplan⟩

theorem ofFolded_not_missing (folded : FoldedOperation) :
    (ofFolded config folded).result ≠ .error (.missingPayload operation action slot) := by
  intro h
  rcases ofFolded_fault h with ⟨_, hold⟩ | hunknown | ⟨known, _, _, ⟨hfull, hmetadata⟩ | hplan⟩
  · cases hold
  · cases hunknown
  · obtain ⟨hbody, rule, hrule, _⟩ := fill_missing hmetadata
    exact hfull ⟨hbody, Option.isSome_of_mem hrule⟩
  · obtain ⟨_, rule, hrule, hpresence⟩ := fill_missing hplan
    exact plan_not_required hrule hpresence

-- No record fails for a missing payload, whatever the instant, the reader and the bodies are. The
-- rules for savepoints require completed bodies, and reading an empty one by them is a fault, but
-- both ways to a record end before that.
theorem payload_never_missing (config : ArchiveConfig) (operation : String) (action : Action)
    (slot : Slot) :
    (∀ reader instant, (ofInstant config reader instant).result ≠
      .error (.missingPayload operation action slot)) ∧
    (∀ folded, (ofFolded config folded).result ≠
      .error (.missingPayload operation action slot)) ∧
    Action.savepoint.rule.completed = some ⟨.savepointMetadata, .required⟩ ∧
    Action.savepoint.rule.foldedMetadata = some ⟨.savepointMetadata, .required⟩ ∧
    ∀ source : BodySource, (source.read ⟨slot, .required⟩ []).result =
      .error (.missingPayload source.operation source.action slot) :=
  ⟨fun _ => ofInstant_not_missing, ofFolded_not_missing, rfl, rfl,
    fun source => source.read_required_nil slot⟩

end Entry

end TableHistory
