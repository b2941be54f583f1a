import TableHistory.Commit.WriteOperation
import TableHistory.Entry.Basic
import TableHistory.Operation.Instant
import TableHistory.Proofs.Entry.Stored
import TableHistory.Proofs.Record.Texts
import TableHistory.Version

namespace TableHistory

open Text

theorem Action.form_restores (action : Action) : form.Restores action :=
  Form.ofNames_restores (by cases action <;> decide)

theorem ActionTag.form_restores (tag : ActionTag) : form.Restores tag := by
  have htag := form_imagesBy.restores tag.action.form_restores
  rwa [← rule, tag_rule] at htag

theorem State.form_restores (state : State) : form.Restores state :=
  Form.ofNames_restores (by cases state <;> decide)

theorem WriteOperation.form_restores (operation : WriteOperation) : form.Restores operation :=
  Form.ofNames_restores (by cases operation <;> decide)

theorem TableVersion.form_restores (version : TableVersion) : form.Restores version :=
  Form.via_restores rfl (Form.uint32_restores version.number)

theorem ArchiveConfig.form_restores (config : ArchiveConfig) : form.Restores config := by
  apply Form.record_restores rfl _ (by decide)
  exact ⟨Place.defaulted_restores _ (TableVersion.form_restores config.tableVersion), trivial⟩

theorem Instant.form_restores (instant : Instant) : form.Restores instant := by
  apply Form.record_restores rfl _ (by decide)
  exact ⟨Place.required_restores (Form.text_restores _),
    Place.required_restores (Action.form_restores _),
    Place.required_restores (State.form_restores _),
    Place.optional_restores fun time _ => Form.text_restores time, trivial⟩

namespace Slot

theorem form_restores (slot : Slot) : form.Restores slot :=
  Form.ofNames_restores (by cases slot <;> decide)

def WithoutMetrics : (slot : Slot) → slot.Value → Prop
  | requestedReplaceMetadata => ReplaceRequest.WithoutMetrics
  | compactionPlan => CompactionPlan.WithoutMetrics
  | _ => fun _ => True

theorem text_restores (slot : Slot) {value : slot.Value} (h : slot.WithoutMetrics value) :
    slot.message.text.Restores value := by
  cases slot with
  | cleanMetadata => exact CleanMetadata.text_restores value
  | cleanPlan => exact CleanerPlan.text_restores value
  | commitMetadata => exact CommitRecord.text_restores value
  | replaceCommitMetadata => exact ReplaceRecord.text_restores value
  | requestedReplaceMetadata => exact ReplaceRequest.text_restores h
  | inflightReplaceMetadata => exact CommitRecord.text_restores value
  | rollbackMetadata => exact RollbackMetadata.text_restores value
  | savepointMetadata => exact SavepointMetadata.text_restores value
  | compactionPlan => exact CompactionPlan.text_restores h

end Slot

namespace Entry

def WithoutMetrics (entry : Entry) : Prop :=
  ∀ slot, ∀ value ∈ entry.payload slot, slot.WithoutMetrics value

-- The time has a member of its own even when there is none.
theorem timePlace_restores (time : Option String) : timePlace.Restores time :=
  Form.optional_reads fun present _ => Form.text_restores present

theorem form_restores {entry : Entry} (h : entry.WithoutMetrics) : form.Restores entry := by
  have hslot : ∀ slot, (place slot).Restores (entry.payload slot) := fun slot =>
    Place.optional_restores fun value hv => slot.text_restores (h slot value hv)
  apply Form.record_restores _ _ (by decide)
  · obtain ⟨operationId, state, time, action, payload⟩ := entry
    simp only [mk.injEq, true_and]
    funext slot
    cases slot <;> rfl
  · exact ⟨Place.required_restores (Form.text_restores _),
      Place.required_restores (State.form_restores _), timePlace_restores _,
      Place.required_restores (Action.form_restores _), hslot _, hslot _, hslot _, hslot _,
      hslot _, hslot _, hslot _, hslot _, hslot _, trivial⟩

end Entry

namespace StoredEntry

def WithoutMetrics (stored : StoredEntry) : Prop := stored.entry.WithoutMetrics

theorem form_restores {stored : StoredEntry} (h : stored.WithoutMetrics) :
    form.Restores stored := by
  have hentry := form_imagesBy.restores (Entry.form_restores h)
  rwa [ofEntry_entry] at hentry

end StoredEntry

-- All types that have a text form.
inductive TextKind
  | record (kind : RecordKind)
  | entry
  | storedEntry
  | slot
  | instant
  | action
  | tag
  | state
  | writeOperation
  | tableVersion
  | config

namespace TextKind

abbrev Value : TextKind → Type
  | record kind => kind.Value
  | entry => Entry
  | storedEntry => StoredEntry
  | slot => Slot
  | instant => Instant
  | action => Action
  | tag => ActionTag
  | state => State
  | writeOperation => WriteOperation
  | tableVersion => TableVersion
  | config => ArchiveConfig

def form : (kind : TextKind) → Form kind.Value
  | record kind => kind.message.text
  | entry => Entry.form
  | storedEntry => StoredEntry.form
  | slot => Slot.form
  | instant => Instant.form
  | action => Action.form
  | tag => ActionTag.form
  | state => State.form
  | writeOperation => WriteOperation.form
  | tableVersion => TableVersion.form
  | config => ArchiveConfig.form

def WithoutMetrics : (kind : TextKind) → kind.Value → Prop
  | record kind => kind.WithoutMetrics
  | entry => Entry.WithoutMetrics
  | storedEntry => StoredEntry.WithoutMetrics
  | _ => fun _ => True

theorem form_restores (kind : TextKind) {value : kind.Value} (h : kind.WithoutMetrics value) :
    kind.form.Restores value := by
  cases kind with
  | record kind => exact kind.text_restores h
  | entry => exact Entry.form_restores h
  | storedEntry => exact StoredEntry.form_restores h
  | slot => exact Slot.form_restores value
  | instant => exact Instant.form_restores value
  | action => exact Action.form_restores value
  | tag => exact ActionTag.form_restores value
  | state => exact State.form_restores value
  | writeOperation => exact WriteOperation.form_restores value
  | tableVersion => exact TableVersion.form_restores value
  | config => exact ArchiveConfig.form_restores value

-- The text of a value is read as that value again.
theorem readBody_encode (kind : TextKind) (value : kind.Value) (h : kind.WithoutMetrics value) :
    readBody kind.form (kind.form.encode value) = .ok value := by
  have hdecode := Form.decode_write (kind.form_restores h).reads
  unfold readBody
  exact congrArg (Except.mapError _) hdecode

-- Both kinds of plan that could hold metrics, and a time that is not there.
def plannedEntry : Entry :=
  (Entry.header "20250101" .requested none .clustering
    |>.insert ⟨.requestedReplaceMetadata,
      { operationType := "CLUSTER"
        clusteringPlan := some { inputGroups := [{ numOutputFileGroups := -2147483648 }] } }⟩)
    |>.insert ⟨.compactionPlan, { operations := [{ dataFilePath := some "a \"name\"\n" }] }⟩

theorem withoutMetrics_plannedEntry : entry.WithoutMetrics plannedEntry := by
  intro slot value hv
  cases slot with
  | requestedReplaceMetadata =>
      cases hv
      intro plan hp
      cases hp
      intro group hg
      rw [List.mem_singleton.mp hg]
      exact rfl
  | compactionPlan =>
      cases hv
      intro operation ho
      rw [List.mem_singleton.mp ho]
      exact rfl
  | _ => trivial

theorem readBody_encode_plannedEntry :
    entry.WithoutMetrics plannedEntry ∧
      readBody entry.form (entry.form.encode plannedEntry) = .ok plannedEntry :=
  ⟨withoutMetrics_plannedEntry, readBody_encode .entry plannedEntry withoutMetrics_plannedEntry⟩

end TextKind

end TableHistory
