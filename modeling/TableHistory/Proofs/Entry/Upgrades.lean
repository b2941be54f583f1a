import TableHistory.Proofs.Commit.Encodings
import TableHistory.Proofs.Entry.Presence

/-!
Upgrades of a table. Its version counts in two places: it gives the era that commit metadata is
read in, and tells whether there are folded operations. So versions of one era differ in nothing
else, and a later version reads what an earlier one could, as the same record.
-/

namespace TableHistory

theorem TableVersion.atLeast_iff {version other : TableVersion} :
    version.atLeast other = true ↔ other.number ≤ version.number :=
  decide_eq_true_iff

namespace Era

theorem ofVersion_of_lt {version : TableVersion} (h : version.number < 8) :
    ofVersion version = text := by
  have hold : ¬ version.atLeast structuredFrom = true := by
    rw [TableVersion.atLeast_iff]
    exact UInt32.not_le.mpr h
  exact if_neg hold

theorem ofVersion_of_not_lt {version : TableVersion} (h : ¬ version.number < 8) :
    ofVersion version = structured := by
  have hnew : version.atLeast structuredFrom = true := by
    rw [TableVersion.atLeast_iff]
    exact UInt32.not_lt.mp h
  exact if_pos hnew

-- Each side of version 8 is one era.
theorem ofVersion_eq {older newer : TableVersion} (h : older.number < 8 ↔ newer.number < 8) :
    ofVersion older = ofVersion newer := by
  by_cases hold : older.number < 8
  · rw [ofVersion_of_lt hold, ofVersion_of_lt (h.mp hold)]
  · rw [ofVersion_of_not_lt hold, ofVersion_of_not_lt (mt h.mpr hold)]

-- All that the one era reads, the other reads in the same way.
def Keeps (older newer : Era) : Prop :=
  ∀ ⦃kind bytes metadata⦄, (older.decode kind bytes).result = .ok metadata →
    (newer.decode kind bytes).result = .ok metadata

theorem keeps_refl (era : Era) : era.Keeps era := fun _ _ _ h => h

theorem text_keeps_structured : text.Keeps structured :=
  fun _ _ _ h => Metadata.decode_of_decodeText h

theorem keeps_ofVersion {older newer : TableVersion} (h : older.number ≤ newer.number) :
    (ofVersion older).Keeps (ofVersion newer) := by
  by_cases hnew : newer.number < 8
  · have hold : older.number < 8 := UInt32.lt_of_le_of_lt h hnew
    rw [ofVersion_eq (iff_of_true hold hnew)]
    exact keeps_refl _
  · by_cases hold : older.number < 8
    · rw [ofVersion_of_lt hold, ofVersion_of_not_lt hnew]
      exact text_keeps_structured
    · rw [ofVersion_eq (iff_of_false hold hnew)]
      exact keeps_refl _

end Era

namespace BodySource

variable {older newer : Era} {operation : String} {action : Action} {body : Bytes}

theorem readCommit_ok_iff {source : BodySource} {decoded : Traced CommitFault Metadata}
    {record : CommitBody} :
    (source.readCommit decoded).result = .ok record ↔
      ∃ metadata, decoded.result = .ok metadata ∧ metadata.body = record := by
  rw [source.readCommit_result, map_eq_ok]
  simp only [mapError_eq_ok]

-- Two of the slots hold what the era makes of a body, and the others are read in every era's way.
theorem readSlot_of_keeps (h : older.Keeps newer) {slot : Slot} {value : slot.Value}
    (hread : ((mk operation action older).readSlot body slot).result = .ok value) :
    ((mk operation action newer).readSlot body slot).result = .ok value := by
  have hera : ∀ {record : CommitRecord},
      (do return (← (mk operation action older).readCommit (older.decode .plain body)).asPlain :
        Traced ArchiveFault CommitRecord).result = .ok record →
      (do return (← (mk operation action newer).readCommit (newer.decode .plain body)).asPlain :
        Traced ArchiveFault CommitRecord).result = .ok record := by
    intro record hold
    rw [Traced.result_bind] at hold ⊢
    obtain ⟨written, hwritten, hrecord⟩ := bind_eq_ok.mp hold
    obtain ⟨metadata, hdecode, hbody⟩ := readCommit_ok_iff.mp hwritten
    exact bind_eq_ok.mpr ⟨written, readCommit_ok_iff.mpr ⟨metadata, h hdecode, hbody⟩, hrecord⟩
  cases slot with
  | commitMetadata => exact hera hread
  | inflightReplaceMetadata => exact hera hread
  | replaceCommitMetadata => exact hread
  | cleanMetadata => exact hread
  | cleanPlan => exact hread
  | requestedReplaceMetadata => exact hread
  | rollbackMetadata => exact hread
  | savepointMetadata => exact hread
  | compactionPlan => exact hread

end BodySource

namespace Entry

variable {older newer : Era} {operation : String} {action : Action} {body : Bytes}

-- A probe would not do: a body that the older era could not read is left out of its record.
theorem fill_of_keeps (h : older.Keeps newer) {entry other : Entry} {rule : SlotRule}
    (hp : rule.presence ≠ .probe)
    (hfill : (entry.fill ⟨operation, action, older⟩ (some rule) body).result = .ok other) :
    (entry.fill ⟨operation, action, newer⟩ (some rule) body).result = .ok other := by
  by_cases hbody : body = []
  · obtain ⟨slot, presence⟩ := rule
    cases presence with
    | always =>
        rw [fill_always] at hfill ⊢
        obtain ⟨value, hread, hinsert⟩ := map_eq_ok.mp hfill
        exact map_eq_ok.mpr ⟨value, BodySource.readSlot_of_keeps h hread, hinsert⟩
    | nonEmpty =>
        rw [fill_nonEmpty, if_pos hbody] at hfill ⊢
        exact hfill
    | required =>
        subst hbody
        exact hfill
    | probe => exact absurd rfl hp
  · rw [fill_of_ne_nil _ _ hp hbody] at hfill ⊢
    obtain ⟨value, hread, hinsert⟩ := map_eq_ok.mp hfill
    exact map_eq_ok.mpr ⟨value, BodySource.readSlot_of_keeps h hread, hinsert⟩

theorem ofInstant_of_keeps {config upgraded : ArchiveConfig}
    (h : (Era.ofVersion config.tableVersion).Keeps (Era.ofVersion upgraded.tableVersion))
    {reader : InstantReader} {instant : Instant} {entry : Entry}
    (hentry : (ofInstant config reader instant).result = .ok entry) :
    (ofInstant upgraded reader instant).result = .ok entry := by
  obtain ⟨body, hread⟩ := exists_body hentry
  rw [ofInstant_result hread] at hentry ⊢
  split
  · rename_i hempty
    rwa [if_pos hempty] at hentry
  · rename_i hfull
    rw [if_neg hfull] at hentry
    cases hrule : instant.action.rule.live instant.state with
    | none =>
        rw [hrule] at hentry
        exact hentry
    | some rule =>
        rw [hrule] at hentry
        exact fill_of_keeps h (live_rule hrule).1 hentry

theorem ofInstant_of_era {config other : ArchiveConfig}
    (h : Era.ofVersion config.tableVersion = Era.ofVersion other.tableVersion)
    (reader : InstantReader) (instant : Instant) :
    ofInstant config reader instant = ofInstant other reader instant := by
  unfold ofInstant
  rw [h]

theorem ofFolded_tooOld {config : ArchiveConfig} (h : config.tableVersion.number < 8)
    (folded : FoldedOperation) :
    ofFolded config folded = .fail (.versionTooOld config.tableVersion foldedFrom) := by
  have hold : config.tableVersion.atLeast foldedFrom = false := by
    rw [Bool.eq_false_iff, ne_eq, TableVersion.atLeast_iff]
    exact UInt32.not_le.mpr h
  simp [ofFolded, hold]

theorem ofFolded_of_atLeast {config other : ArchiveConfig}
    (hconfig : ¬ config.tableVersion.number < 8) (hother : ¬ other.tableVersion.number < 8)
    (folded : FoldedOperation) : ofFolded config folded = ofFolded other folded := by
  have hfrom : ∀ {version : TableVersion}, ¬ version.number < 8 →
      version.atLeast foldedFrom = true :=
    fun h => TableVersion.atLeast_iff.mpr (UInt32.not_lt.mp h)
  have hera : Era.ofVersion config.tableVersion = Era.ofVersion other.tableVersion :=
    Era.ofVersion_eq (iff_of_false hconfig hother)
  simp only [ofFolded, hfrom hconfig, hfrom hother, hera, Bool.not_true, Bool.false_eq_true,
    if_false]

-- An upgrade loses and changes nothing: any record of a live instant is built by every later
-- version. Versions on one side of 8 do all the same, down to the faults and the notes, but that
-- those without folded operations tell which of them they are.
theorem ofInstant_upgrade (older newer : TableVersion) :
    (older.number ≤ newer.number → ∀ reader instant entry,
      (ofInstant ⟨older⟩ reader instant).result = .ok entry →
        (ofInstant ⟨newer⟩ reader instant).result = .ok entry) ∧
    ((older.number < 8 ↔ newer.number < 8) →
      (∀ reader instant, ofInstant ⟨older⟩ reader instant = ofInstant ⟨newer⟩ reader instant) ∧
      ∀ folded,
        (¬ older.number < 8 → ofFolded ⟨older⟩ folded = ofFolded ⟨newer⟩ folded) ∧
        (older.number < 8 →
          ofFolded ⟨older⟩ folded = .fail (.versionTooOld older ⟨8⟩) ∧
          ofFolded ⟨newer⟩ folded = .fail (.versionTooOld newer ⟨8⟩))) := by
  constructor
  · intro hle reader instant entry hentry
    exact ofInstant_of_keeps (Era.keeps_ofVersion hle) hentry
  · intro hside
    constructor
    · intro reader instant
      exact ofInstant_of_era (Era.ofVersion_eq hside) reader instant
    · intro folded
      constructor
      · intro hold
        exact ofFolded_of_atLeast hold (mt hside.mpr hold) folded
      · intro hold
        exact ⟨ofFolded_tooOld hold folded, ofFolded_tooOld (hside.mp hold) folded⟩

-- The inflight metadata of a clustering from before the upgrade, as text.
theorem ofInstant_upgrade_inflight :
    (∃ entry,
      (ofInstant ⟨⟨6⟩⟩ (fun _ => .ok [Text.openObject, Text.closeObject])
        ⟨"1", .clustering, .inflight, none⟩).result = .ok entry ∧
      (ofInstant ⟨⟨8⟩⟩ (fun _ => .ok [Text.openObject, Text.closeObject])
        ⟨"1", .clustering, .inflight, none⟩).result = .ok entry ∧
      entry.slots = [.inflightReplaceMetadata]) ∧
    ∀ folded, ofFolded ⟨⟨8⟩⟩ folded = ofFolded ⟨⟨9⟩⟩ folded := by
  have hold : (ofInstant ⟨⟨6⟩⟩ (fun _ => .ok [Text.openObject, Text.closeObject])
      ⟨"1", .clustering, .inflight, none⟩).result =
        .ok ((header "1" .inflight none .clustering).insert ⟨.inflightReplaceMetadata, {}⟩) := rfl
  have hnew : ∀ folded, ofFolded ⟨⟨8⟩⟩ folded = ofFolded ⟨⟨9⟩⟩ folded :=
    fun folded => (((ofInstant_upgrade ⟨8⟩ ⟨9⟩).2 (by decide)).2 folded).1 (by decide)
  exact ⟨⟨_, hold, (ofInstant_upgrade ⟨6⟩ ⟨8⟩).1 (by decide) _ _ _ hold, rfl⟩, hnew⟩

end Entry

end TableHistory
