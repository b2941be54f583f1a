import TableHistory.Proofs.Record.Structured

namespace TableHistory

open Schema Wire

namespace CommitRecord

variable {levels : Nat} {type : WireType} {old new : CommitRecord} {payload rest : Bytes}

-- What a commit makes of a value behind each of its tags.
theorem mergeField_stats :
    message.mergeField levels old (Key.write ⟨1, type⟩ ++ payload) = .ok (new, rest) ↔
      ∃ map, (Cell.keyed WriteStats.message.shape).merge levels type old.partitionToWriteStats
        payload = .ok (map, rest) ∧ new = { old with partitionToWriteStats := map } := by
  have hcell : message.fields.At (.keyed WriteStats.message.shape) 1 _ _ := .here rfl rfl
  exact Message.mergeField_at_iff (by decide) hcell

theorem mergeField_extra :
    message.mergeField levels old (Key.write ⟨2, type⟩ ++ payload) = .ok (new, rest) ↔
      ∃ map, (Cell.keyed .string).merge levels type old.extraMetadata payload = .ok (map, rest) ∧
        new = { old with extraMetadata := map } := by
  have hcell : message.fields.At (.keyed .string) 2 _ _ := .behind (by decide) (.here rfl rfl)
  exact Message.mergeField_at_iff (by decide) hcell

theorem mergeField_compacted :
    message.mergeField levels old (Key.write ⟨3, type⟩ ++ payload) = .ok (new, rest) ↔
      ∃ flag, (Cell.single .bool).merge levels type old.compacted payload = .ok (flag, rest) ∧
        new = { old with compacted := flag } := by
  have hcell : message.fields.At (.single .bool) 3 _ _ :=
    .behind (by decide) (.behind (by decide) (.here rfl rfl))
  exact Message.mergeField_at_iff (by decide) hcell

theorem mergeField_operation :
    message.mergeField levels old (Key.write ⟨4, type⟩ ++ payload) = .ok (new, rest) ↔
      ∃ name, (Cell.optional .string).merge levels type old.operationType payload =
        .ok (name, rest) ∧ new = { old with operationType := name } := by
  have hcell : message.fields.At (.optional .string) 4 _ _ :=
    .behind (by decide) (.behind (by decide) (.behind (by decide) (.here rfl rfl)))
  exact Message.mergeField_at_iff (by decide) hcell

end CommitRecord

namespace WriteStats

variable {levels : Nat} {type : WireType} {old new : WriteStats} {payload rest : Bytes}

theorem mergeField_stat :
    message.mergeField levels old (Key.write ⟨1, type⟩ ++ payload) = .ok (new, rest) ↔
      ∃ stats, (Cell.repeated WriteStat.message.shape).merge levels type old.stats payload =
        .ok (stats, rest) ∧ new = ⟨stats⟩ := by
  have hcell : message.fields.At (.repeated WriteStat.message.shape) 1 _ _ := .here rfl rfl
  exact Message.mergeField_at_iff (by decide) hcell

-- A stat is read whole.
theorem stat_iff {body behind : Bytes} (hs : body.length < sizeLimit) :
    message.mergeField (levels + 1) old
        (Key.write ⟨1, .delimited⟩ ++ (writeDelimited body ++ rest)) = .ok (new, behind) ↔
      behind = rest ∧ ∃ stat, WriteStat.message.readAt levels body = .ok stat ∧
        new = ⟨old.stats ++ [stat]⟩ := by
  rw [mergeField_stat]
  constructor
  · rintro ⟨stats, hcell, rfl⟩
    obtain ⟨⟨stat, middle⟩, hstat, hstats⟩ := bind_eq_ok.mp hcell
    cases hstats
    obtain ⟨rfl, hread⟩ := (Message.shape_merge_iff WriteStat.fronts hs).mp hstat
    exact ⟨rfl, stat, hread, rfl⟩
  · rintro ⟨rfl, stat, hread, rfl⟩
    have hstat : WriteStat.message.shape.wire.read (levels + 1) .delimited WriteStat.message.zero
        (writeDelimited body ++ behind) = .ok (stat, behind) :=
      (Message.shape_merge_iff WriteStat.fronts hs).mpr ⟨rfl, hread⟩
    exact ⟨_, bind_eq_ok.mpr ⟨(stat, behind), hstat, rfl⟩, rfl⟩

end WriteStats

-- A field of a request behind its version.
inductive RequestPart
  | extra (entry : String × String)
  | operation (name : String)
  | plan (clustering : ClusteringPlan)

namespace RequestPart

def tag : RequestPart → Nat
  | extra _ => 2
  | operation _ => 3
  | plan _ => 4

def body : RequestPart → Bytes
  | extra entry => Cell.writeUnlessZero .text 1 entry.1 ++ Cell.writeUnlessZero .text 2 entry.2
  | operation name => Utf8.encode name
  | plan clustering => ClusteringPlan.message.write clustering

def bytes (part : RequestPart) : Bytes :=
  Key.write ⟨part.tag, .delimited⟩ ++ writeDelimited part.body

-- Whether a commit can have the part for a field: metadata is the same in both kinds of record, no
-- commit has a string where a request has its operation, and a plan may be taken for a string.
def FitsCommit : RequestPart → Prop
  | extra _ => True
  | operation _ => False
  | plan clustering => (Utf8.decode? (ClusteringPlan.message.write clustering)).isSome = true

-- Whether an entry of write stats can have the part for a field. The key of an entry of metadata is
-- taken for a write stat, and all else is skipped.
def FitsStats (levels : Nat) : RequestPart → Prop
  | extra entry => ∃ stat, WriteStat.message.readAt levels (Utf8.encode entry.1) = .ok stat
  | operation _ => True
  | plan _ => True

theorem isTag_tag (part : RequestPart) : IsTag part.tag := by
  cases part with
  | extra entry => exact (by decide : IsTag 2)
  | operation name => exact (by decide : IsTag 3)
  | plan clustering => exact (by decide : IsTag 4)

theorem bytes_ne_nil (part : RequestPart) : part.bytes ≠ [] :=
  List.append_ne_nil_of_left_ne_nil (Key.write_ne_nil _) _

variable {levels : Nat} {part : RequestPart}

theorem body_length_lt {limit : Nat} (h : part.bytes.length < limit) :
    part.body.length < limit := by
  unfold bytes at h
  rw [List.length_append] at h
  exact length_lt_of_writeDelimited (by omega)

-- Metadata is read as the entry that was written.
theorem takes_extra (entry : String × String) (hs : (extra entry).bytes.length < sizeLimit)
    (old : CommitRecord) :
    Takes (CommitRecord.message.mergeField (levels + 1) old) (extra entry).bytes
      { old with extraMetadata := old.extraMetadata.insert entry.1 entry.2 } := by
  intro rest
  unfold bytes at hs ⊢
  rw [List.length_append] at hs
  have hlen : (Cell.writeEntry .string entry).length < sizeLimit :=
    Nat.lt_of_le_of_lt (Nat.le_add_left _ _) hs
  have hentry := Cell.readEntry_writeEntry entry (Form.text_restores levels) hlen rest
  have hcell : (Cell.keyed .string).merge (levels + 1) .delimited old.extraMetadata
      (Cell.writeEntry .string entry ++ rest) =
        .ok (old.extraMetadata.insert entry.1 entry.2, rest) := by
    simp only [Cell.merge, hentry]
    rfl
  rw [List.append_assoc]
  exact CommitRecord.mergeField_extra.mpr ⟨_, hcell, rfl⟩

-- A plan is read as an operation's name, if it is one.
theorem plan_commit_iff {clustering : ClusteringPlan}
    (hs : (plan clustering).bytes.length < sizeLimit) {old new : CommitRecord}
    {rest behind : Bytes} :
    CommitRecord.message.mergeField levels old ((plan clustering).bytes ++ rest) =
      .ok (new, behind) ↔
        ∃ name, Utf8.decode? (ClusteringPlan.message.write clustering) = some name ∧
          behind = rest ∧ new = { old with operationType := some name } := by
  have hblob := readBlob_writeDelimited (ClusteringPlan.message.write clustering) rest
    (body_length_lt hs)
  unfold bytes
  rw [List.append_assoc]
  refine CommitRecord.mergeField_operation.trans ?_
  simp only [body, Cell.merge, Shape.string, Form.read, Form.text, if_true, hblob, ok_bind]
  cases Utf8.decode? (ClusteringPlan.message.write clustering) with
  | none => simp [fail]
  | some name => simp [and_assoc, eq_comm]

theorem settles_commit (hs : part.bytes.length < sizeLimit) :
    Settles (CommitRecord.message.mergeField (levels + 1)) part.bytes part.FitsCommit := by
  cases part with
  | extra entry =>
      exact settles_of_takes (bytes_ne_nil _) fun old => ⟨_, takes_extra entry hs old⟩
  | operation name =>
      apply settles_of_ne_ok (bytes_ne_nil _)
      rintro old rest ⟨new, behind⟩ h
      unfold bytes at h
      rw [List.append_assoc] at h
      obtain ⟨_, h, -⟩ := CommitRecord.mergeField_compacted.mp h
      cases h
  | plan clustering =>
      refine ⟨bytes_ne_nil _, ?_, ?_⟩
      · intro hfits old
        obtain ⟨name, hname⟩ := Option.isSome_iff_exists.mp hfits
        exact ⟨_, fun rest => (plan_commit_iff hs).mpr ⟨name, hname, rfl, rfl⟩⟩
      · intro old new rest behind h
        obtain ⟨name, hname, hbehind, -⟩ := (plan_commit_iff hs).mp h
        exact ⟨Option.isSome_iff_exists.mpr ⟨name, hname⟩, hbehind⟩

-- The tags and texts of the fields of an entry of metadata. Empty ones are left out.
def entryItem (tag : Nat) (text : String) : List (Nat × String) :=
  if text.isEmpty then [] else [(tag, text)]

def entryItems (entry : String × String) : List (Nat × String) :=
  entryItem 1 entry.1 ++ entryItem 2 entry.2

def itemBytes (item : Nat × String) : Bytes :=
  Key.write ⟨item.1, .delimited⟩ ++ writeDelimited (Utf8.encode item.2)

theorem flatten_entryItem (tag : Nat) (text : String) :
    ((entryItem tag text).map itemBytes).flatten = Cell.writeUnlessZero .text tag text := by
  unfold entryItem Cell.writeUnlessZero
  by_cases ht : text.isEmpty = true
  · have hzero : Form.text.isZero text = true := ht
    rw [if_pos ht, if_pos hzero]
    rfl
  · have hzero : ¬ Form.text.isZero text = true := ht
    rw [if_neg ht, if_neg hzero]
    exact List.append_nil _

theorem flatten_entryItems (entry : String × String) :
    ((entryItems entry).map itemBytes).flatten = (extra entry).body := by
  unfold entryItems body
  rw [List.map_append, List.flatten_append, flatten_entryItem, flatten_entryItem]

theorem mem_entryItem {tag : Nat} {text : String} {item : Nat × String}
    (h : item ∈ entryItem tag text) : item = (tag, text) := by
  unfold entryItem at h
  split at h
  · cases h
  · exact List.mem_singleton.mp h

-- Of the fields of an entry, the key has to be a stat, and the value is skipped.
def ItemFits (levels : Nat) (item : Nat × String) : Prop :=
  item.1 = 1 → ∃ stat, WriteStat.message.readAt levels (Utf8.encode item.2) = .ok stat

theorem itemBytes_ne_nil (item : Nat × String) : itemBytes item ≠ [] :=
  List.append_ne_nil_of_left_ne_nil (Key.write_ne_nil _) _

theorem settles_key {name : String} (hs : (Utf8.encode name).length < sizeLimit) :
    Settles (WriteStats.message.mergeField (levels + 1)) (itemBytes (1, name))
      (ItemFits levels (1, name)) := by
  have hread : ∀ (old new : WriteStats) (rest behind : Bytes),
      WriteStats.message.mergeField (levels + 1) old (itemBytes (1, name) ++ rest) =
        .ok (new, behind) ↔ behind = rest ∧
          ∃ stat, WriteStat.message.readAt levels (Utf8.encode name) = .ok stat ∧
            new = ⟨old.stats ++ [stat]⟩ := by
    intro old new rest behind
    unfold itemBytes
    rw [List.append_assoc]
    exact WriteStats.stat_iff hs
  refine ⟨itemBytes_ne_nil _, ?_, ?_⟩
  · intro hfits old
    obtain ⟨stat, hstat⟩ := hfits rfl
    exact ⟨_, fun rest => (hread ..).mpr ⟨rfl, stat, hstat, rfl⟩⟩
  · intro old new rest behind hr
    obtain ⟨hbehind, stat, hstat, -⟩ := (hread ..).mp hr
    exact ⟨fun _ => ⟨stat, hstat⟩, hbehind⟩

theorem settles_value {text : String} (hs : (Utf8.encode text).length < sizeLimit) :
    Settles (WriteStats.message.mergeField (levels + 1)) (itemBytes (2, text))
      (ItemFits levels (2, text)) := by
  have htakes : ∀ old, Takes (WriteStats.message.mergeField (levels + 1) old)
      (itemBytes (2, text)) old := by
    intro old rest
    unfold itemBytes
    rw [List.append_assoc]
    have hunknown : 2 ∉ WriteStats.message.fields.tags := by decide
    apply (Message.mergeField_unknown_iff (by decide : IsTag 2) hunknown).mpr
    exact ⟨skip_writeDelimited levels 2 (Utf8.encode text) rest hs, rfl⟩
  have hskips := settles_of_takes (itemBytes_ne_nil (2, text)) fun old => ⟨old, htakes old⟩
  exact hskips.congr (by simp [ItemFits])

theorem settles_item {entry : String × String} (hs : (extra entry).bytes.length < sizeLimit)
    {item : Nat × String} (h : item ∈ entryItems entry) :
    Settles (WriteStats.message.mergeField (levels + 1)) (itemBytes item)
      (ItemFits levels item) := by
  have hlen : (Utf8.encode item.2).length < sizeLimit := by
    have hbody := body_length_lt hs
    rw [← flatten_entryItems] at hbody
    obtain ⟨front, behind, he⟩ := List.append_of_mem (List.mem_map_of_mem (f := itemBytes) h)
    rw [he] at hbody
    simp only [List.flatten_append, List.flatten_cons, List.length_append, itemBytes] at hbody
    exact length_lt_of_writeDelimited (by omega)
  rcases List.mem_append.mp h with h | h
  · obtain rfl := mem_entryItem h
    exact settles_key hlen
  · obtain rfl := mem_entryItem h
    exact settles_value hlen

-- An entry fits if its key does, and without a key it always does.
theorem items_fit_iff (entry : String × String) :
    (∀ item ∈ entryItems entry, ItemFits levels item) ↔ (extra entry).FitsStats levels := by
  obtain ⟨name, value⟩ := entry
  constructor
  · intro h
    by_cases hname : name.isEmpty = true
    · have hempty : name = "" := by simpa using hname
      exact ⟨WriteStat.message.zero, by rw [hempty]; rfl⟩
    · apply h (1, name) _ rfl
      exact List.mem_append_left _ (by simp [entryItem, hname])
  · intro h item hm htag
    rcases List.mem_append.mp hm with hm | hm
    · obtain rfl := mem_entryItem hm
      exact h
    · obtain rfl := mem_entryItem hm
      cases htag

-- Inside an entry of write stats, metadata is read as the entry's value.
theorem extra_stats_iff {entry : String × String} (hs : (extra entry).bytes.length < sizeLimit)
    {old new : String × WriteStats} {rest behind : Bytes} :
    Cell.readEntryField WriteStats.message.shape (levels + 2) old ((extra entry).bytes ++ rest) =
      .ok (new, behind) ↔ behind = rest ∧ ∃ stats pieces,
        ((entryItems entry).map itemBytes).flatten = pieces.flatten ∧
          Run (Consumes (WriteStats.message.mergeField (levels + 1))) pieces old.2 stats ∧
          new = (old.1, stats) := by
  have hmerge : ∀ stats, WriteStats.message.shape.wire.read (levels + 2) .delimited old.2
      (writeDelimited (extra entry).body ++ rest) = .ok (stats, behind) ↔
        behind = rest ∧ ∃ pieces, (extra entry).body = pieces.flatten ∧
          Run (Consumes (WriteStats.message.mergeField (levels + 1))) pieces old.2 stats :=
    fun _ => readDelimited_writeDelimited_iff
      (Message.mergeField_advances WriteStats.fronts (levels + 1)) (body_length_lt hs)
  unfold bytes
  rw [List.append_assoc, flatten_entryItems]
  refine Cell.readEntryField_value.trans ?_
  simp only [hmerge]
  constructor
  · rintro ⟨stats, ⟨rfl, pieces, hbody, hrun⟩, rfl⟩
    exact ⟨rfl, stats, pieces, hbody, hrun, rfl⟩
  · rintro ⟨rfl, stats, pieces, hbody, hrun, rfl⟩
    exact ⟨stats, ⟨rfl, pieces, hbody, hrun⟩, rfl⟩

theorem skipped_stats (hs : part.bytes.length < sizeLimit) (ht : part.tag ≠ 2)
    (old : String × WriteStats) :
    Takes (Cell.readEntryField WriteStats.message.shape (levels + 1) old) part.bytes old := by
  have htag : part.tag ≠ 1 := by cases part <;> exact nofun
  intro rest
  unfold bytes
  rw [List.append_assoc]
  apply (Cell.readEntryField_other (isTag_tag part) htag ht).mpr
  exact ⟨skip_writeDelimited levels part.tag part.body rest (body_length_lt hs), rfl⟩

theorem settles_stats (hs : part.bytes.length < sizeLimit) :
    Settles (Cell.readEntryField WriteStats.message.shape (levels + 2)) part.bytes
      (part.FitsStats levels) := by
  cases part with
  | extra entry =>
      -- An entry is read along fields of its own, and each of these is settled in turn.
      have hitems : ∀ item ∈ entryItems entry, Settles
          (WriteStats.message.mergeField (levels + 1)) (itemBytes item) (ItemFits levels item) :=
        fun item hm => settles_item hs hm
      refine ⟨bytes_ne_nil _, ?_, ?_⟩
      · intro hfits old
        obtain ⟨pieces, stats, he, hrun⟩ :=
          (run_iff_settled hitems old.2).mpr ((items_fit_iff entry).mpr hfits)
        exact ⟨_, fun rest => (extra_stats_iff hs).mpr ⟨rfl, stats, pieces, he, hrun, rfl⟩⟩
      · intro old new rest behind h
        obtain ⟨hbehind, stats, pieces, he, hrun, -⟩ := (extra_stats_iff hs).mp h
        have hfit := (run_iff_settled hitems old.2).mp ⟨pieces, stats, he, hrun⟩
        exact ⟨(items_fit_iff entry).mp hfit, hbehind⟩
  | operation name =>
      exact settles_of_takes (bytes_ne_nil _) fun old => ⟨old, skipped_stats hs nofun old⟩
  | plan clustering =>
      exact settles_of_takes (bytes_ne_nil _) fun old => ⟨old, skipped_stats hs nofun old⟩

end RequestPart

end TableHistory
