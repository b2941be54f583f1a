import TableHistory.Proofs.Commit.Bodies
import TableHistory.Proofs.Commit.Encodings
import TableHistory.Proofs.Schema.Reordering

namespace TableHistory

open Schema Wire

variable {levels : Nat}

theorem CommitRecord.commutes : CommitRecord.message.fields.Commutes (levels + 3) :=
  ⟨Cell.keyed_commutes (Message.shape_restores (WriteStats.restores levels)),
    Cell.keyed_commutes (Form.text_restores _), Cell.single_commutes, Cell.optional_commutes,
    trivial⟩

theorem ReplaceRecord.commutes : ReplaceRecord.message.fields.Commutes (levels + 3) :=
  ⟨Cell.keyed_commutes (Message.shape_restores (WriteStats.restores levels)),
    Cell.keyed_commutes (Form.text_restores _), Cell.single_commutes, Cell.optional_commutes,
    Cell.keyed_commutes (Message.shape_restores (ReplacedFiles.restores _)), trivial⟩

theorem CommitRecord.run_own (record : CommitRecord)
    (hs : (CommitRecord.message.write record).length < sizeLimit) :
    Run (CommitRecord.message.fields.Takes CommitRecord.message.name levelLimit)
      (CommitRecord.message.fields.chunks (CommitRecord.message.unpack record))
      CommitRecord.message.fields.zero (CommitRecord.message.unpack record) :=
  shared_run (by decide) (Message.length_chunk_lt hs) (.nil _)

theorem ReplaceRecord.run_own (record : ReplaceRecord)
    (hs : (ReplaceRecord.message.write record).length < sizeLimit) :
    Run (ReplaceRecord.message.fields.Takes ReplaceRecord.message.name levelLimit)
      (ReplaceRecord.message.fields.chunks (ReplaceRecord.message.unpack record))
      ReplaceRecord.message.fields.zero (ReplaceRecord.message.unpack record) := by
  have hsize := Message.length_chunk_lt hs
  have hreplaced : replacedField.cell.Restores levelLimit id :=
    Cell.keyed_exact _ (Message.shape_restores (ReplacedFiles.restores _))
  apply shared_run (by decide) hsize
  apply Fields.run_cons hreplaced (by decide) List.not_mem_nil _ (.nil _)
  intro chunk hc
  apply hsize
  exact List.mem_append_right _ <| List.mem_append_right _ <| List.mem_append_right _ <|
    List.mem_append_right _ <| List.mem_append_left _ hc

namespace CommitBody

-- The pieces are the fields of the body's record in any order, with fields between them that its
-- kind of record does not know.
def Scatters (body : CommitBody) (pieces : List Piece) : Prop :=
  match body with
  | plain record => CommitRecord.message.Scatters record pieces
  | replace record => ReplaceRecord.message.Scatters record pieces

theorem readFields_scattered_iff {body other : CommitBody} {pieces : List Piece}
    (hs : body.writeStructured.length < sizeLimit) (h : body.Scatters pieces) :
    readFields body.kind (pieces.flatMap Piece.bytes) = .ok other ↔
      other = body ∧ ∀ field ∈ pieces.filterMap Piece.foreign?, field.levels ≤ levelLimit := by
  cases body with
  | plain record =>
      have hlength := Framed.length_write_lt hs
      have hread : ∀ {result}, CommitRecord.message.read (pieces.flatMap Piece.bytes) = .ok result ↔
          result = record ∧ ∀ field ∈ pieces.filterMap Piece.foreign?, field.levels ≤ levelLimit :=
        Message.read_scattered_iff CommitRecord.fronts CommitRecord.commutes (by decide)
          (CommitRecord.run_own record hlength) hlength h
      simp only [readFields, kind, map_eq_ok, hread, and_assoc, exists_eq_left]
      rw [and_comm, eq_comm]
  | replace record =>
      have hlength := Framed.length_write_lt hs
      have hread : ∀ {result},
          ReplaceRecord.message.read (pieces.flatMap Piece.bytes) = .ok result ↔
          result = record ∧ ∀ field ∈ pieces.filterMap Piece.foreign?, field.levels ≤ levelLimit :=
        Message.read_scattered_iff ReplaceRecord.fronts ReplaceRecord.commutes (by decide)
          (ReplaceRecord.run_own record hlength) hlength h
      simp only [readFields, kind, map_eq_ok, hread, and_assoc, exists_eq_left]
      rw [and_comm, eq_comm]

-- A structured body is read as its record in whatever order its fields come, and with any fields
-- between them that the record does not know, exactly if no field lies in more than 99 groups.
-- Else it is not read at all.
theorem readStructured_scattered_iff {body other : CommitBody} {pieces : List Piece}
    (hs : body.writeStructured.length < 2 ^ 64) (h : body.Scatters pieces) :
    readStructured body.kind (Framed.header ++ pieces.flatMap Piece.bytes) = .ok other ↔
      other = body ∧ ∀ field ∈ pieces.filterMap Piece.foreign?, field.levels ≤ 100 :=
  readStructured_header_iff.trans (readFields_scattered_iff hs h)

-- A value of the given tag that is zero.
def zeroVarint (tag : Nat) (h : IsTag tag) : Foreign :=
  .varint tag (.shortest _ h) 0 (.shortest 0 (by decide))

-- The value in groups of the tag below.
def zeroInGroups (depth : Nat) : Foreign :=
  .nested 6 (.shortest _ (by decide)) (.shortest _ (by decide)) (zeroVarint 7 (by decide)) depth

-- A commit with its flag behind its operation, and a group of two levels in front of both.
def flaggedRecord : CommitRecord where
  compacted := true
  operationType := some "A"

def flaggedPieces : List Piece :=
  [.foreign (zeroInGroups 2), .known ⟨4, [0x22, 1, 0x41]⟩, .known ⟨3, [0x18, 1]⟩]

theorem readStructured_scattered_flagged :
    (plain flaggedRecord).writeStructured.length < 2 ^ 64 ∧
      (plain flaggedRecord).Scatters flaggedPieces ∧
      readStructured .plain (Framed.header ++
        [0x33, 0x33, 0x38, 0, 0x34, 0x34, 0x22, 1, 0x41, 0x18, 1]) = .ok (plain flaggedRecord) := by
  have hs : (plain flaggedRecord).writeStructured.length < 2 ^ 64 := by decide
  have h : (plain flaggedRecord).Scatters flaggedPieces := by
    constructor
    · exact List.Perm.swap _ _ _
    · decide
  exact ⟨hs, h, (readStructured_scattered_iff hs h).mpr ⟨rfl, by decide⟩⟩

-- A hundred groups in each other are too many for a value in the innermost of them.
theorem not_readStructured_of_groups :
    ¬ ∀ (body : CommitBody) (pieces : List Piece), body.writeStructured.length < 2 ^ 64 →
      body.Scatters pieces →
      (∀ field ∈ pieces.filterMap Piece.foreign?, field.groups ≤ 100) →
      readStructured body.kind (Framed.header ++ pieces.flatMap Piece.bytes) = .ok body := by
  intro hclaim
  have hs : (plain {}).writeStructured.length < 2 ^ 64 := by decide
  have hscatters : (plain {}).Scatters [.foreign (zeroInGroups 100)] := by
    constructor
    · exact .refl _
    · decide
  have hgroups : (zeroInGroups 100).groups = 100 := Foreign.groups_nested _ 100
  have hlevels : (zeroInGroups 100).levels = 101 := Foreign.levels_nested _ 100
  have hread := hclaim _ _ hs hscatters (by simp [Piece.foreign?, hgroups])
  have hfields := readStructured_header_iff.mp hread
  obtain ⟨_, hlow⟩ := (readFields_scattered_iff hs hscatters).mp hfields
  have hdeep := hlow _ List.mem_cons_self
  rw [hlevels] at hdeep
  exact absurd hdeep (by decide)

end CommitBody

end TableHistory
