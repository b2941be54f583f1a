import TableHistory.Proofs.Commit.Encodings
import TableHistory.Proofs.Commit.Recoding
import TableHistory.Proofs.Schema.Cuts

namespace TableHistory

open Schema
open Framed (header)

theorem CommitRecord.orderly : CommitRecord.message.Orderly := ⟨by decide, rfl⟩

theorem ReplaceRecord.orderly : ReplaceRecord.message.Orderly := ⟨by decide, rfl⟩

namespace CommitBody

def chunks : CommitBody → List Chunk
  | plain record => CommitRecord.message.chunks record
  | replace record => ReplaceRecord.message.chunks record

-- The body of which only the first fields are left, each entry of a map being one.
def keep (count : Nat) : CommitBody → CommitBody
  | plain record => plain (CommitRecord.message.keep count record)
  | replace record => replace (ReplaceRecord.message.keep count record)

-- At least one field is missing, and the bytes are the header and the fields before it.
def CutAfter (body : CommitBody) (count : Nat) (front : Bytes) : Prop :=
  count < body.chunks.length ∧ front = header ++ (body.chunks.take count).flatMap Chunk.bytes

variable {body other : CommitBody} {count : Nat} {front more : Bytes}

theorem writeStructured_chunks (body : CommitBody) :
    body.writeStructured = header ++ body.chunks.flatMap Chunk.bytes := by
  cases body <;> rfl

theorem chunks_keep (body : CommitBody) : (body.keep count).chunks = body.chunks.take count := by
  cases body with
  | plain record => exact Message.chunks_keep CommitRecord.orderly record
  | replace record => exact Message.chunks_keep ReplaceRecord.orderly record

theorem CutAfter.writeStructured_keep (h : body.CutAfter count front) :
    (body.keep count).writeStructured = front := by
  rw [writeStructured_chunks, chunks_keep, h.2]

theorem CutAfter.keep_ne (h : body.CutAfter count front) : body.keep count ≠ body := by
  intro he
  have hchunks : (body.keep count).chunks = body.chunks.take count := chunks_keep body
  have hlength := congrArg List.length hchunks
  have hmissing := h.1
  rw [he, List.length_take] at hlength
  omega

theorem readFields_cut_iff {fields : Bytes} (hs : body.writeStructured.length < Wire.sizeLimit)
    (hcut : body.writeStructured = header ++ (fields ++ more)) (hmore : more ≠ []) :
    readFields body.kind fields = .ok other ↔
      ∃ count, body.CutAfter count (header ++ fields) ∧ other = body.keep count := by
  cases body with
  | plain record =>
      have hread : ∀ {result}, CommitRecord.message.read fields = .ok result ↔
          ∃ count, CommitRecord.message.CutAfter record count fields ∧
            result = CommitRecord.message.keep count record :=
        Message.read_cut_iff CommitRecord.orderly CommitRecord.fronts (CommitRecord.restores _)
          (Framed.length_write_lt hs) (List.append_cancel_left hcut) hmore
      simp only [readFields, kind, map_eq_ok, hread, CutAfter, List.append_cancel_left_eq]
      constructor
      · rintro ⟨_, ⟨count, hcutAfter, rfl⟩, rfl⟩
        exact ⟨count, hcutAfter, rfl⟩
      · rintro ⟨count, hcutAfter, rfl⟩
        exact ⟨_, ⟨count, hcutAfter, rfl⟩, rfl⟩
  | replace record =>
      have hread : ∀ {result}, ReplaceRecord.message.read fields = .ok result ↔
          ∃ count, ReplaceRecord.message.CutAfter record count fields ∧
            result = ReplaceRecord.message.keep count record :=
        Message.read_cut_iff ReplaceRecord.orderly ReplaceRecord.fronts (ReplaceRecord.restores _)
          (Framed.length_write_lt hs) (List.append_cancel_left hcut) hmore
      simp only [readFields, kind, map_eq_ok, hread, CutAfter, List.append_cancel_left_eq]
      constructor
      · rintro ⟨_, ⟨count, hcutAfter, rfl⟩, rfl⟩
        exact ⟨count, hcutAfter, rfl⟩
      · rintro ⟨count, hcutAfter, rfl⟩
        exact ⟨_, ⟨count, hcutAfter, rfl⟩, rfl⟩

theorem readStructured_cut_iff (hs : body.writeStructured.length < Wire.sizeLimit)
    (hcut : body.writeStructured = front ++ more) (hmore : more ≠ []) :
    readStructured body.kind front = .ok other ↔
      ∃ count, body.CutAfter count front ∧ other = body.keep count := by
  by_cases hheader : header <+: front
  · obtain ⟨fields, rfl⟩ := hheader
    rw [List.append_assoc] at hcut
    rw [readStructured_header_iff]
    exact readFields_cut_iff hs hcut hmore
  · rw [readStructured_no_header body.kind hheader]
    constructor
    · exact nofun
    · rintro ⟨count, hcutAfter, _⟩
      exact absurd ⟨_, hcutAfter.2.symm⟩ hheader

-- The first letter of the header begins no value.
theorem readText_cut (hcut : body.writeStructured = front ++ more) (hfront : front ≠ [])
    (target : CommitKind) : readText target front = .error (.text .malformed) := by
  obtain ⟨first, rest, rfl⟩ := List.exists_cons_of_ne_nil hfront
  rw [writeStructured_chunks] at hcut
  obtain ⟨rfl, _⟩ := List.cons_eq_cons.mp hcut
  cases target <;> rfl

end CommitBody

namespace Metadata

variable {body : CommitBody} {front more : Bytes}

theorem ofBody_inj {left right : CommitBody} : ofBody left = ofBody right ↔ left = right := by
  constructor
  · intro h
    rw [← body_ofBody left, h, body_ofBody]
  · rintro rfl
    rfl

-- What is no text is read as the structured reader does.
theorem decode_of_readText_error {kind : CommitKind} {bytes : Bytes} {metadata : Metadata}
    {fault : DecodeFault} (hne : bytes ≠ []) (h : CommitBody.readText kind bytes = .error fault) :
    (decode kind bytes).result = .ok metadata ↔
      ∃ record, CommitBody.readStructured kind bytes = .ok record ∧ metadata = ofBody record := by
  rw [decode_result hne, h]
  cases CommitBody.readStructured kind bytes with
  | error other => simp
  | ok record => simp [eq_comm]

-- A structured body of which the end is missing is read exactly if only whole fields are missing,
-- and then as the record whose body it is, which is never the whole one. No reader takes it for
-- text.
theorem decode_cut_iff (hs : body.writeStructured.length < 2 ^ 64)
    (hcut : body.writeStructured = front ++ more) (hfront : front ≠ []) (hmore : more ≠ []) :
    (∀ record, CommitBody.readStructured body.kind front = .ok record ↔
      ∃ count, body.CutAfter count front ∧ record = body.keep count) ∧
    (∀ metadata, (decode body.kind front).result = .ok metadata ↔
      ∃ count, body.CutAfter count front ∧ metadata = ofBody (body.keep count)) ∧
    (∀ count, body.CutAfter count front → (body.keep count).writeStructured = front ∧
      body.keep count ≠ body ∧ ofBody (body.keep count) ≠ ofBody body) ∧
    ∀ target record, CommitBody.readText target front ≠ .ok record := by
  have hread : ∀ {record}, CommitBody.readStructured body.kind front = .ok record ↔
      ∃ count, body.CutAfter count front ∧ record = body.keep count :=
    CommitBody.readStructured_cut_iff hs hcut hmore
  have htext := CommitBody.readText_cut hcut hfront
  refine ⟨fun _ => hread, ?_, ?_, ?_⟩
  · intro metadata
    rw [decode_of_readText_error hfront (htext body.kind)]
    constructor
    · rintro ⟨record, hrecord, rfl⟩
      obtain ⟨count, hcutAfter, rfl⟩ := hread.mp hrecord
      exact ⟨count, hcutAfter, rfl⟩
    · rintro ⟨count, hcutAfter, rfl⟩
      exact ⟨_, hread.mpr ⟨count, hcutAfter, rfl⟩, rfl⟩
  · intro count hcutAfter
    have hne := hcutAfter.keep_ne
    exact ⟨hcutAfter.writeStructured_keep, hne, mt ofBody_inj.mp hne⟩
  · intro target record
    rw [htext target]
    nofun

-- A commit of two partitions without files, of which the second one is cut off.
def twoPartitions : CommitRecord where
  partitionToWriteStats := .ofList [("a", {}), ("b", {})]

theorem decode_cut_twoPartitions :
    (CommitBody.plain twoPartitions).writeStructured =
        header ++ [0x0a, 3, 0x0a, 1, 0x61] ++ [0x0a, 3, 0x0a, 1, 0x62] ∧
      (decode .plain (header ++ [0x0a, 3, 0x0a, 1, 0x61])).result =
        .ok (ofBody (.plain { partitionToWriteStats := .ofList [("a", {})] })) := by
  have hcut : (CommitBody.plain twoPartitions).writeStructured =
      header ++ [0x0a, 3, 0x0a, 1, 0x61] ++ [0x0a, 3, 0x0a, 1, 0x62] := by decide
  have hs : (CommitBody.plain twoPartitions).writeStructured.length < 2 ^ 64 := by decide
  have hkept : (CommitBody.plain twoPartitions).CutAfter 1 (header ++ [0x0a, 3, 0x0a, 1, 0x61]) :=
    ⟨by decide, by decide⟩
  have hread := (decode_cut_iff hs hcut (by decide) (by decide)).2.1
  exact ⟨hcut, (hread _).mpr ⟨1, hkept, rfl⟩⟩

end Metadata

end TableHistory
