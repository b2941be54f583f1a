import TableHistory.Proofs.Commit.Detour
import TableHistory.Proofs.Entry.Presence

namespace TableHistory

-- The slots of commits, whose bodies are read as commit metadata.
def Slot.ofCommits : List Slot :=
  [.commitMetadata, .replaceCommitMetadata, .inflightReplaceMetadata]

namespace Era

-- The record of such a slot straight from a body. Completed replacements are read in the way of the
-- structured era in every era.
def readSlot (era : Era) (body : Bytes) (slot : Slot) : Option slot.Value :=
  (if slot = .replaceCommitMetadata then structured else era).readRecord slot.message body

end Era

namespace BodySource

variable {source : BodySource} {decoded : Traced CommitFault Metadata} {slot : Slot} {body : Bytes}

theorem toOption_readCommit :
    (source.readCommit decoded).result.toOption = decoded.result.toOption.map Metadata.body := by
  rw [source.readCommit_result]
  cases decoded.result <;> rfl

theorem toOption_readSlot (source : BodySource) (body : Bytes) (h : slot ∈ Slot.ofCommits) :
    (source.readSlot body slot).result.toOption = source.era.readSlot body slot := by
  have hplain : (do return (← source.readCommit (source.era.decode .plain body)).asPlain :
      Traced ArchiveFault CommitRecord).result.toOption =
        source.era.readRecord CommitRecord.message body := by
    rw [Traced.toOption_return, toOption_readCommit, Era.toOption_decode_plain, Option.map_map]
    exact Option.map_id'
  have hreplace : (do return (← source.readCommit (Metadata.decode .replace body)).asReplace :
      Traced ArchiveFault ReplaceRecord).result.toOption =
        Era.structured.readRecord ReplaceRecord.message body := by
    have hdecode := Era.structured.toOption_decode_replace body
    rw [Traced.toOption_return, toOption_readCommit]
    rw [Era.decode] at hdecode
    rw [hdecode, Option.map_map]
    exact Option.map_id'
  simp only [Slot.ofCommits, List.mem_cons, List.not_mem_nil, or_false] at h
  rcases h with rfl | rfl | rfl
  · exact hplain
  · exact hreplace
  · exact hplain

theorem leavesOnly_readCommit (source : BodySource) (era : Era) (kind : CommitKind)
    (body : Bytes) : (source.readCommit (era.decode kind body)).LeavesOnly Note.KeepsNull := by
  apply Traced.leavesOnly_bind (Traced.leavesOnly_mapFault _ era.leavesOnly_decode)
  intro metadata hmetadata
  rw [Traced.result_mapFault, mapError_eq_ok] at hmetadata
  -- What was read has no null partition to drop.
  have hbodied := Era.bodied_of_decode hmetadata
  exact Traced.leavesOnly_of_notes_nil (Metadata.bodyNotes_eq_nil hbodied.none_notMem)

theorem leavesOnly_readSlot (source : BodySource) (body : Bytes) (slot : Slot) :
    (source.readSlot body slot).LeavesOnly Note.KeepsNull := by
  have hcommit : ∀ {α : Type} (part : CommitBody → α) (era : Era) (kind : CommitKind),
      (do return part (← source.readCommit (era.decode kind body)) :
        Traced ArchiveFault α).LeavesOnly Note.KeepsNull := by
    intro α part era kind
    exact Traced.leavesOnly_bind (source.leavesOnly_readCommit era kind body) fun _ _ =>
      Traced.leavesOnly_pure _
  cases slot with
  | commitMetadata => exact hcommit CommitBody.asPlain source.era .plain
  | inflightReplaceMetadata => exact hcommit CommitBody.asPlain source.era .plain
  | replaceCommitMetadata => exact hcommit CommitBody.asReplace .structured .replace
  | cleanMetadata => exact Traced.leavesOnly_ofExcept _
  | cleanPlan => exact Traced.leavesOnly_ofExcept _
  | requestedReplaceMetadata => exact Traced.leavesOnly_ofExcept _
  | rollbackMetadata => exact Traced.leavesOnly_ofExcept _
  | savepointMetadata => exact Traced.leavesOnly_ofExcept _
  | compactionPlan => exact Traced.leavesOnly_ofExcept _

theorem leavesOnly_readPayload (source : BodySource) (body : Bytes) (slot : Slot) :
    (source.readPayload body slot).LeavesOnly Note.KeepsNull :=
  Traced.leavesOnly_bind (source.leavesOnly_readSlot body slot) fun _ _ => Traced.leavesOnly_pure _

theorem leavesOnly_read (source : BodySource) (rule : SlotRule) (body : Bytes) :
    (source.read rule body).LeavesOnly Note.KeepsNull := by
  have hpayload := source.leavesOnly_readPayload body rule.slot
  have hsome : (do return some (← source.readPayload body rule.slot) :
      Traced ArchiveFault (Option Payload)).LeavesOnly Note.KeepsNull :=
    Traced.leavesOnly_bind hpayload fun _ _ => Traced.leavesOnly_pure _
  obtain ⟨slot, presence⟩ := rule
  unfold read readWith
  cases presence with
  | always => exact hsome
  | nonEmpty =>
      dsimp only
      split
      · exact Traced.leavesOnly_pure _
      · exact hsome
  | required =>
      dsimp only
      split
      · exact Traced.leavesOnly_of_notes_nil rfl
      · exact hsome
  | probe =>
      dsimp only
      split
      · exact Traced.leavesOnly_pure _
      · apply Traced.leavesOnly_bind (Traced.leavesOnly_attempt hpayload)
        intro attempted _
        cases attempted with
        | ok payload => exact Traced.leavesOnly_pure _
        | error fault =>
            exact Traced.leavesOnly_bind (Traced.leavesOnly_note trivial) fun _ _ =>
              Traced.leavesOnly_pure _

end BodySource

namespace Entry

variable {config : ArchiveConfig} {source : BodySource} {rule : Option SlotRule} {body : Bytes}
  {entry other : Entry} {slot : Slot} {value : slot.Value}

theorem leavesOnly_fill (entry : Entry) (source : BodySource) (rule : Option SlotRule)
    (body : Bytes) : (entry.fill source rule body).LeavesOnly Note.KeepsNull := by
  cases rule with
  | none => exact Traced.leavesOnly_pure _
  | some rule =>
      apply Traced.leavesOnly_bind (source.leavesOnly_read rule body)
      intro payload _
      cases payload <;> exact Traced.leavesOnly_pure _

theorem leavesOnly_ofInstant (config : ArchiveConfig) (reader : InstantReader) (instant : Instant) :
    (ofInstant config reader instant).LeavesOnly Note.KeepsNull := by
  refine Traced.leavesOnly_bind (Traced.leavesOnly_ofExcept _) ?_
  intro body _
  dsimp only
  split
  · exact Traced.leavesOnly_bind (Traced.leavesOnly_note trivial) fun _ _ =>
      Traced.leavesOnly_pure _
  · exact leavesOnly_fill _ _ _ _

theorem leavesOnly_ofFolded (config : ArchiveConfig) (folded : FoldedOperation) :
    (ofFolded config folded).LeavesOnly Note.KeepsNull := by
  unfold ofFolded
  split
  · exact Traced.leavesOnly_of_notes_nil rfl
  · cases Action.ofName? folded.action with
    | none => exact Traced.leavesOnly_of_notes_nil rfl
    | some action =>
        dsimp only
        split
        · exact Traced.leavesOnly_bind (Traced.leavesOnly_note trivial) fun _ _ =>
            Traced.leavesOnly_pure _
        · exact Traced.leavesOnly_bind (leavesOnly_fill _ _ _ _) fun _ _ =>
            leavesOnly_fill _ _ _ _

-- A payload is an old one, or what was read for the slot of the rule.
theorem payload_fill (h : (entry.fill source rule body).result = .ok other)
    (hvalue : other.payload slot = some value) :
    entry.payload slot = some value ∨
      rule.map SlotRule.slot = some slot ∧ (source.readSlot body slot).result = .ok value := by
  rcases fill_cases _ _ h with rfl | ⟨slotRule, hrule, read, hread, rfl⟩
  · exact .inl hvalue
  · by_cases hslot : slot = slotRule.slot
    · subst hslot
      rw [payload_insert] at hvalue
      rw [← Option.some.inj hvalue, Option.mem_def.mp hrule]
      exact .inr ⟨rfl, hread⟩
    · have hold : (entry.insert ⟨slotRule.slot, read⟩).payload slot = entry.payload slot :=
        payload_insert_of_ne entry hslot
      rw [hold] at hvalue
      exact .inl hvalue

-- What is in a slot of commits after filling is what was there, or the rule's slot is that one and
-- the body is its record.
theorem payload_fill_ofCommits (h : (entry.fill source rule body).result = .ok other)
    (hslot : slot ∈ Slot.ofCommits) (hvalue : other.payload slot = some value) :
    entry.payload slot = some value ∨
      rule.map SlotRule.slot = some slot ∧ source.era.readSlot body slot = some value := by
  refine (payload_fill h hvalue).imp_right ?_
  rintro ⟨hrule, hread⟩
  refine ⟨hrule, ?_⟩
  rw [← source.toOption_readSlot body hslot, hread]
  rfl

theorem payload_ofInstant_direct {reader : InstantReader} {instant : Instant}
    (hread : reader instant = .ok body) (h : (ofInstant config reader instant).result = .ok entry)
    (hslot : slot ∈ Slot.ofCommits) (hhas : entry.has slot) :
    entry.payload slot = (Era.ofVersion config.tableVersion).readSlot body slot := by
  obtain ⟨value, hvalue⟩ := Option.isSome_iff_exists.mp hhas
  rw [ofInstant_result hread] at h
  split at h
  · rw [← Except.ok.inj h] at hvalue
    cases hvalue
  · rcases payload_fill_ofCommits h hslot hvalue with hheader | ⟨_, hdirect⟩
    · cases hheader
    · exact hvalue.trans hdirect.symm

-- The body of a folded operation that a slot of commits is filled from.
def bodyOf (folded : FoldedOperation) (slot : Slot) : Bytes :=
  (if slot = .inflightReplaceMetadata then folded.plan else folded.metadata).getD []

-- Only the inflight metadata of a replacing operation is in a plan.
theorem folded_rules (action : Action) (hslot : slot ∈ Slot.ofCommits) :
    (action.rule.foldedMetadata.map SlotRule.slot = some slot →
      slot ≠ .inflightReplaceMetadata) ∧
    (action.rule.foldedPlan.map SlotRule.slot = some slot → slot = .inflightReplaceMetadata) := by
  revert hslot
  cases action <;> cases slot <;> decide

theorem payload_ofFolded_direct {folded : FoldedOperation}
    (h : (ofFolded config folded).result = .ok entry) (hslot : slot ∈ Slot.ofCommits)
    (hhas : entry.has slot) :
    entry.payload slot =
      (Era.ofVersion config.tableVersion).readSlot (bodyOf folded slot) slot := by
  obtain ⟨value, hvalue⟩ := Option.isSome_iff_exists.mp hhas
  obtain ⟨hversion, action, haction⟩ := ofFolded_known h
  obtain ⟨time, completion, name, version, metadata, plan⟩ := folded
  obtain rfl := haction
  obtain ⟨hmetadata, hplan⟩ := folded_rules action hslot
  rw [ofFolded_result hversion] at h
  split at h
  · rw [← Except.ok.inj h] at hvalue
    cases hvalue
  · obtain ⟨completed, hcompleted, hfilled⟩ := bind_eq_ok.mp h
    rcases payload_fill_ofCommits hfilled hslot hvalue with hold | ⟨hrule, hdirect⟩
    · rcases payload_fill_ofCommits hcompleted hslot hold with hheader | ⟨hrule, hdirect⟩
      · cases hheader
      · rw [bodyOf, if_neg (hmetadata hrule), hvalue]
        exact hdirect.symm
    · rw [bodyOf, if_pos (hplan hrule), hvalue]
      exact hdirect.symm

-- The way through commit metadata loses nothing. A body becomes the same body again without a note,
-- so the slots of commits hold what reading their bodies straight gives, in every era, and whether
-- records are built or not, no null partition is noted on the way. Other metadata loses the null
-- partition of each map that has one and nothing else, and exactly that is noted.
theorem detour_lossless :
    (∀ body : CommitBody, ((Metadata.ofBody body).toBody : Traced ArchiveFault CommitBody) =
      .ok body) ∧
    (∀ (source : BodySource) body, ∀ slot ∈ Slot.ofCommits,
      (source.readSlot body slot).result.toOption = source.era.readSlot body slot) ∧
    (∀ config reader instant body entry, reader instant = .ok body →
      (ofInstant config reader instant).result = .ok entry →
      ∀ slot ∈ Slot.ofCommits, entry.has slot →
        entry.payload slot = (Era.ofVersion config.tableVersion).readSlot body slot) ∧
    (∀ config folded entry, (ofFolded config folded).result = .ok entry →
      ∀ slot ∈ Slot.ofCommits, entry.has slot →
        entry.payload slot =
          (Era.ofVersion config.tableVersion).readSlot (bodyOf folded slot) slot) ∧
    (∀ config field kept total,
      (∀ reader instant,
        .nullPartitionDropped field kept total ∉ (ofInstant config reader instant).notes) ∧
      ∀ folded, .nullPartitionDropped field kept total ∉ (ofFolded config folded).notes) ∧
    ∀ metadata : Metadata, ∃ body,
      (metadata.toBody : Traced ArchiveFault CommitBody) = ⟨.ok body, metadata.dropNotes⟩ ∧
        Metadata.ofBody body = metadata.withoutNull := by
  refine ⟨Metadata.toBody_ofBody, fun source body slot => source.toOption_readSlot body, ?_, ?_, ?_,
    ?_⟩
  · intro config reader instant body entry hread h slot
    exact payload_ofInstant_direct hread h
  · intro config folded entry h slot
    exact payload_ofFolded_direct h
  · intro config field kept total
    constructor
    · intro reader instant hnote
      exact leavesOnly_ofInstant config reader instant _ hnote
    · intro folded hnote
      exact leavesOnly_ofFolded config folded _ hnote
  · intro metadata
    exact ⟨metadata.body, by rw [← Metadata.bodyNotes_eq]; rfl, metadata.ofBody_body⟩

-- A commit that compacted, with a partition whose path is empty.
def emptyPathRecord : CommitRecord where
  partitionToWriteStats := .insert .empty "" {}
  compacted := true

def emptyPathInstant : Instant := ⟨"1", .commit, .completed, some "2"⟩

-- Its plan is text.
def textPlanned : FoldedOperation :=
  ⟨"1", "2", "clustering", 1, some (Framed.header ++ [0x18, 1]),
    some [Text.openObject, Text.closeObject]⟩

theorem detour_lossless_emptyPath :
    (∃ entry, (ofInstant {} (fun _ => .ok (CommitBody.plain emptyPathRecord).writeStructured)
        emptyPathInstant).result = .ok entry ∧
      entry.payload .commitMetadata = some emptyPathRecord) ∧
    ∃ entry, (ofFolded {} textPlanned).result = .ok entry ∧
      entry.payload .replaceCommitMetadata = some { compacted := true } ∧
      entry.payload .inflightReplaceMetadata = some {} := by
  obtain ⟨_, _, hlive, hfolded, _⟩ := detour_lossless
  constructor
  · have hpayload := hlive {} (fun _ => .ok (CommitBody.plain emptyPathRecord).writeStructured)
      emptyPathInstant _ _ rfl rfl .commitMetadata (by decide) rfl
    exact ⟨_, rfl, hpayload⟩
  · have hcompleted := hfolded {} textPlanned _ rfl .replaceCommitMetadata (by decide) rfl
    have hplan := hfolded {} textPlanned _ rfl .inflightReplaceMetadata (by decide) rfl
    exact ⟨_, rfl, hcompleted, hplan⟩

end Entry

end TableHistory
