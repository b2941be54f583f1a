import TableHistory.Entry.Stored.Build
import TableHistory.Proofs.Entry.Cells
import TableHistory.Proofs.Text.Images

namespace TableHistory

namespace StoredPayload

@[simp] theorem ofPayload_payload (payload : StoredPayload) :
    ofPayload payload.payload = payload := by
  cases payload <;> rfl

@[simp] theorem payload_ofPayload (payload : Payload) : (ofPayload payload).payload = payload := by
  obtain ⟨slot, value⟩ := payload
  cases slot <;> rfl

end StoredPayload

namespace StoredEntry

@[simp] theorem ofEntry_entry (stored : StoredEntry) : ofEntry stored.entry = stored := by
  have htag : stored.tag.action.rule.tag = stored.tag := stored.tag.tag_rule
  cases stored
  simp only [ofEntry, StoredEntry.entry, payload, htag]

@[simp] theorem entry_ofEntry (entry : Entry) : (ofEntry entry).entry = entry := by
  refine Entry.ext_payloadIn rfl rfl rfl entry.action.action_tag ?_
  intro slot
  cases slot <;> rfl

theorem entry_header (operationId : String) (state : State) (time : Option String)
    (tag : ActionTag) :
    (header operationId state time tag).entry = .header operationId state time tag.action := by
  refine Entry.ext_payloadIn rfl rfl rfl rfl ?_
  intro slot
  cases slot <;> rfl

-- A payload goes to the field of its slot, and all other fields stay.
theorem payload_insert (stored : StoredEntry) (payload : StoredPayload) (slot : Slot) :
    ((stored.insert payload).payload slot).map (Payload.mk slot) =
      if payload.slot = slot then some payload.payload
      else (stored.payload slot).map (Payload.mk slot) := by
  cases payload <;> cases slot <;> rfl

theorem entry_insert (stored : StoredEntry) (payload : StoredPayload) :
    (stored.insert payload).entry = stored.entry.insert payload.payload := by
  have hheader : (stored.insert payload).entry.operationId = stored.operationId ∧
      (stored.insert payload).entry.state = stored.state ∧
      (stored.insert payload).entry.transitionTime = stored.transitionTime ∧
      (stored.insert payload).entry.action = stored.tag.action := by
    cases payload <;> exact ⟨rfl, rfl, rfl, rfl⟩
  obtain ⟨hid, hstate, htime, haction⟩ := hheader
  refine Entry.ext_payloadIn hid hstate htime haction ?_
  intro slot
  rw [Entry.payloadIn_insert]
  exact stored.payload_insert payload slot

-- The record after payloads were inserted one after the other.
def inserted (stored : StoredEntry) (payloads : List StoredPayload) : StoredEntry :=
  payloads.foldl insert stored

theorem entry_inserted (stored : StoredEntry) (payloads : List StoredPayload) :
    (stored.inserted payloads).entry =
      stored.entry.inserted (payloads.map StoredPayload.payload) := by
  induction payloads generalizing stored with
  | nil => rfl
  | cons payload payloads ih =>
      have hrest := ih (stored.insert payload)
      rw [entry_insert] at hrest
      exact hrest

theorem has_entry (stored : StoredEntry) (slot : Slot) : stored.entry.has slot = stored.has slot := by
  cases slot <;> rfl

theorem slots_entry (stored : StoredEntry) : stored.entry.slots = stored.slots := by
  apply List.filter_congr
  intro slot _
  exact stored.has_entry slot

theorem isConsistent_entry (stored : StoredEntry) :
    stored.entry.isConsistent = stored.isConsistent := by
  unfold Entry.isConsistent isConsistent
  rw [slots_entry]
  rfl

end StoredEntry

namespace BodySource

variable (source : BodySource) {body : Bytes}

-- Each slot's body becomes the payload of that slot, with the same notes and faults.
theorem readStored_payload (slot : Slot) :
    StoredPayload.payload <$> source.readStored body slot = source.readPayload body slot := by
  cases slot <;> simp [readStored, readPayload, readSlot, StoredPayload.payload,
    StoredPayload.slot, StoredPayload.value]

-- What is done to payloads has no effect on which bodies are read.
theorem map_readWith {π ρ : Type} (change : π → ρ) (payloadOf : Slot → Traced ArchiveFault π)
    (rule : SlotRule) :
    Option.map change <$> source.readWith payloadOf rule body =
      source.readWith (fun slot => change <$> payloadOf slot) rule body := by
  obtain ⟨slot, presence⟩ := rule
  have hsome : (Option.map change <$> do return some (← payloadOf slot)) =
      (do return some (← change <$> payloadOf slot) : Traced ArchiveFault (Option ρ)) := by
    simp only [map_bind, map_pure, Option.map_some, bind_map_left]
  unfold readWith
  cases presence with
  | always => exact hsome
  | nonEmpty =>
      dsimp only
      split
      · rfl
      · exact hsome
  | required =>
      dsimp only
      split
      · rfl
      · exact hsome
  | probe =>
      dsimp only
      split
      · rfl
      · simp only [map_bind, Traced.attempt_map, bind_map_left]
        refine bind_congr fun attempted => ?_
        cases attempted <;> rfl

theorem readWith_readStored (rule : SlotRule) :
    Option.map StoredPayload.payload <$> source.readWith (source.readStored body) rule body =
      source.read rule body := by
  rw [map_readWith]
  simp only [readStored_payload]
  rfl

end BodySource

namespace StoredEntry

theorem entry_fill (stored : StoredEntry) (source : BodySource) (rule : Option SlotRule)
    (body : Bytes) :
    StoredEntry.entry <$> stored.fill source rule body = stored.entry.fill source rule body := by
  cases rule with
  | none => rfl
  | some rule =>
      simp only [fill, Entry.fill, ← source.readWith_readStored, map_bind, bind_map_left]
      refine bind_congr fun payload => ?_
      cases payload with
      | none => rfl
      | some payload => exact congrArg pure (stored.entry_insert payload)

theorem entry_headerOf (instant : Instant) : (headerOf instant).entry = Entry.headerOf instant := by
  rw [headerOf, entry_header, Action.action_tag]
  rfl

theorem entry_ofEmpty {ε : Type} (instant : Instant) :
    StoredEntry.entry <$> (ofEmpty instant : Traced ε StoredEntry) = Entry.ofEmpty instant := by
  simp only [ofEmpty, Entry.ofEmpty, map_bind, map_pure, entry_headerOf]

-- Whether payloads are fields or a function of the slot, a live instant gives the same record, with
-- the same notes and faults, and so does a folded operation.
theorem entry_ofInstant (config : ArchiveConfig) (reader : InstantReader) (instant : Instant) :
    StoredEntry.entry <$> ofInstant config reader instant =
      Entry.ofInstant config reader instant := by
  simp only [ofInstant, Entry.ofInstant, map_bind]
  refine bind_congr fun body => ?_
  split
  · exact entry_ofEmpty instant
  · rw [entry_fill, entry_headerOf]

theorem entry_ofFolded (config : ArchiveConfig) (folded : FoldedOperation) :
    StoredEntry.entry <$> ofFolded config folded = Entry.ofFolded config folded := by
  unfold ofFolded Entry.ofFolded
  split
  · rfl
  · cases Action.ofName? folded.action with
    | none => rfl
    | some action =>
        have hheader := entry_header folded.instantTime .completed (some folded.completionTime)
          action.rule.tag
        rw [Action.action_tag] at hheader
        dsimp only
        split
        · simp only [map_bind, map_pure, hheader]
        · rw [← hheader, ← entry_fill, map_bind, bind_map_left]
          simp only [entry_fill]

end StoredEntry

open Text

theorem ActionTag.form_imagesBy :
    Action.form.ImagesBy (fun action => action.rule.tag) ActionTag.form :=
  Form.ofNames_imagesBy Action.name_tag

-- All places but that of the tag are the same, and tags have the names of their actions.
theorem StoredEntry.form_imagesBy : Entry.form.ImagesBy ofEntry form := by
  have htag := Place.required_imagesBy "action-type" ActionTag.form_imagesBy
  apply Places.ImagesBy.record
  · exact .cons (Place.imagesBy_id _) <| .cons (Place.imagesBy_id _) <|
      .cons (Place.imagesBy_id _) <| .cons htag (Places.imagesBy_id _)
  · intro values
    rfl
  · intro entry
    rfl

theorem StoredEntry.encode_form (stored : StoredEntry) :
    form.encode stored = Entry.form.encode stored.entry := by
  have hencode := form_imagesBy.encode stored.entry
  rwa [ofEntry_entry] at hencode

-- A text is read as both kinds of record, or refused with one fault.
theorem StoredEntry.readBody_form (bytes : Bytes) :
    readBody form bytes = ofEntry <$> readBody Entry.form bytes := by
  unfold readBody
  rw [form_imagesBy.decode]
  cases Entry.form.decode bytes <;> rfl

end TableHistory
