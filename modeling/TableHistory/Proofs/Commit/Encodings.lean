import TableHistory.Commit.Encoding
import TableHistory.Proofs.Schema.Messages
import TableHistory.Proofs.Traced

namespace TableHistory

open Framed (header)

namespace Framed

theorem body?_eq_none {bytes : Bytes} (h : ¬ header <+: bytes) : body? bytes = none := if_neg h

theorem header_append_ne_nil (body : Bytes) : header ++ body ≠ [] := List.cons_ne_nil _ _

end Framed

namespace CommitBody

-- Reads the fields behind the header.
def readFields (kind : CommitKind) (body : Bytes) : Except Wire.Fault CommitBody :=
  match kind with
  | .plain => (CommitRecord.message.read body).map plain
  | .replace => (ReplaceRecord.message.read body).map replace

theorem readStructured_header (kind : CommitKind) (body : Bytes) :
    readStructured kind (header ++ body) = (readFields kind body).mapError .structured := by
  cases kind with
  | plain =>
      simp only [readStructured, readFields, Framed.read, Framed.body?_append]
      cases CommitRecord.message.read body <;> rfl
  | replace =>
      simp only [readStructured, readFields, Framed.read, Framed.body?_append]
      cases ReplaceRecord.message.read body <;> rfl

theorem readStructured_header_iff {kind : CommitKind} {body : Bytes} {record : CommitBody} :
    readStructured kind (header ++ body) = .ok record ↔ readFields kind body = .ok record := by
  rw [readStructured_header, mapError_eq_ok]

theorem readStructured_no_header (kind : CommitKind) {bytes : Bytes} (h : ¬ header <+: bytes) :
    readStructured kind bytes = .error (.missingHeader bytes.length) := by
  cases kind with
  | plain => simp only [readStructured, Framed.read, Framed.body?_eq_none h, Except.map]
  | replace => simp only [readStructured, Framed.read, Framed.body?_eq_none h, Except.map]

-- The first byte of the header begins no value.
theorem readText_header (kind : CommitKind) (body : Bytes) :
    readText kind (header ++ body) = .error (.text .malformed) := by
  cases kind with
  | plain => rfl
  | replace => rfl

-- A body is either text or structured, whichever kind of commit each reader asks for.
theorem readText_of_readStructured {kind : CommitKind} {bytes : Bytes} {body : CommitBody}
    (h : readStructured kind bytes = .ok body) (other : CommitKind) :
    readText other bytes = .error (.text .malformed) := by
  by_cases hheader : header <+: bytes
  · obtain ⟨rest, rfl⟩ := hheader
    exact readText_header other rest
  · rw [readStructured_no_header kind hheader] at h
    cases h

end CommitBody

-- The length that a fault tells of.
def CommitFault.length : CommitFault → Nat
  | unreadable length _ _ => length
  | unreadableText length _ => length

namespace Metadata

variable {kind : CommitKind} {bytes : Bytes}

-- The attempts of `decode` the other way round.
def decodeTextFirst (kind : CommitKind) (bytes : Bytes) : Except CommitFault Metadata :=
  if bytes.isEmpty then .ok (zero kind)
  else
    match CommitBody.readText kind bytes with
    | .ok body => .ok (ofBody body)
    | .error text =>
      match CommitBody.readStructured kind bytes with
      | .ok body => .ok (ofBody body)
      | .error structured => .error (.unreadable bytes.length structured text)

theorem decode_result (h : bytes ≠ []) :
    (decode kind bytes).result =
      match CommitBody.readStructured kind bytes, CommitBody.readText kind bytes with
      | .ok body, _ => .ok (ofBody body)
      | .error _, .ok body => .ok (ofBody body)
      | .error structured, .error text => .error (.unreadable bytes.length structured text) := by
  have hne : bytes.isEmpty = false := by simpa using h
  simp only [decode, hne, Bool.false_eq_true, if_false]
  cases CommitBody.readStructured kind bytes with
  | ok body => rfl
  | error structured =>
      cases CommitBody.readText kind bytes with
      | ok body => rfl
      | error text => rfl

theorem decodeText_result (h : bytes ≠ []) :
    decodeText kind bytes =
      match CommitBody.readText kind bytes with
      | .ok body => .ok (ofBody body)
      | .error text => .error (.unreadableText bytes.length text) := by
  have hne : ¬ bytes.isEmpty = true := by simpa using h
  exact if_neg hne

theorem decodeTextFirst_result (h : bytes ≠ []) :
    decodeTextFirst kind bytes =
      match CommitBody.readText kind bytes, CommitBody.readStructured kind bytes with
      | .ok body, _ => .ok (ofBody body)
      | .error _, .ok body => .ok (ofBody body)
      | .error text, .error structured => .error (.unreadable bytes.length structured text) := by
  have hne : bytes.isEmpty = false := by simpa using h
  simp only [decodeTextFirst, hne, Bool.false_eq_true, if_false]
  cases CommitBody.readText kind bytes <;> cases CommitBody.readStructured kind bytes <;> rfl

theorem decode_header (kind : CommitKind) (body : Bytes) :
    (decode kind (header ++ body)).result =
      match CommitBody.readFields kind body with
      | .ok record => .ok (ofBody record)
      | .error fault =>
        .error (.unreadable (header ++ body).length (.structured fault) (.text .malformed)) := by
  rw [decode_result (Framed.header_append_ne_nil body), CommitBody.readStructured_header,
    CommitBody.readText_header]
  cases CommitBody.readFields kind body with
  | ok record => rfl
  | error fault => rfl

theorem decodeText_header (kind : CommitKind) (body : Bytes) :
    decodeText kind (header ++ body) =
      .error (.unreadableText (header ++ body).length (.text .malformed)) := by
  rw [decodeText_result (Framed.header_append_ne_nil body), CommitBody.readText_header]

-- Without the header, the text reader decides.
theorem decode_no_header (hne : bytes ≠ []) (h : ¬ header <+: bytes) (metadata : Metadata) :
    (decode kind bytes).result = .ok metadata ↔ decodeText kind bytes = .ok metadata := by
  rw [decode_result hne, decodeText_result hne, CommitBody.readStructured_no_header kind h]
  cases CommitBody.readText kind bytes with
  | ok body => exact Iff.rfl
  | error text => exact ⟨nofun, nofun⟩

theorem decodeTextFirst_eq (kind : CommitKind) (bytes : Bytes) :
    decodeTextFirst kind bytes = (decode kind bytes).result := by
  by_cases hne : bytes = []
  · subst hne
    rfl
  · rw [decodeTextFirst_result hne, decode_result hne]
    cases hstructured : CommitBody.readStructured kind bytes with
    | ok body => rw [CommitBody.readText_of_readStructured hstructured kind]
    | error structured => cases CommitBody.readText kind bytes <;> rfl

-- What the text era reads, the structured era reads in the same way.
theorem decode_of_decodeText {metadata : Metadata} (h : decodeText kind bytes = .ok metadata) :
    (decode kind bytes).result = .ok metadata := by
  by_cases hne : bytes = []
  · subst hne
    exact h
  · by_cases hheader : header <+: bytes
    · obtain ⟨body, rfl⟩ := hheader
      rw [decodeText_header] at h
      cases h
    · exact (decode_no_header hne hheader metadata).mpr h

theorem length_of_decode_error {fault : CommitFault}
    (h : (decode kind bytes).result = .error fault) : fault.length = bytes.length := by
  by_cases hne : bytes = []
  · subst hne
    cases h
  · rw [decode_result hne] at h
    split at h
    · cases h
    · cases h
    · obtain rfl := Except.error.inj h
      rfl

theorem length_of_decodeText_error {fault : CommitFault}
    (h : decodeText kind bytes = .error fault) : fault.length = bytes.length := by
  by_cases hne : bytes = []
  · subst hne
    cases h
  · rw [decodeText_result hne] at h
    split at h
    · cases h
    · obtain rfl := Except.error.inj h
      rfl

-- The readers never compete. Behind the header only the structured reader can accept a body, and
-- does if its fields can be read. Without the header the text reader decides. So no body is both
-- text and structured, either may be tried first, the structured era keeps what the text era read,
-- and faults tell the length of the body.
theorem readers_disjoint (kind : CommitKind) (bytes : Bytes) :
    (bytes = [] →
      (decode kind bytes).result = .ok (zero kind) ∧ decodeText kind bytes = .ok (zero kind)) ∧
    (∀ body, bytes = header ++ body →
      (∀ metadata, decodeText kind bytes ≠ .ok metadata) ∧
      ∀ metadata, (decode kind bytes).result = .ok metadata ↔
        ∃ record, CommitBody.readFields kind body = .ok record ∧ ofBody record = metadata) ∧
    (bytes ≠ [] → ¬ header <+: bytes → ∀ metadata,
      (decode kind bytes).result = .ok metadata ↔ decodeText kind bytes = .ok metadata) ∧
    (∀ body text other, CommitBody.readStructured kind bytes = .ok body →
      CommitBody.readText other bytes ≠ .ok text) ∧
    decodeTextFirst kind bytes = (decode kind bytes).result ∧
    (∀ metadata, (Era.text.decode kind bytes).result = .ok metadata →
      (Era.structured.decode kind bytes).result = .ok metadata) ∧
    (∀ fault, (decode kind bytes).result = .error fault → fault.length = bytes.length) ∧
    ∀ fault, decodeText kind bytes = .error fault → fault.length = bytes.length := by
  refine ⟨?_, ?_, decode_no_header, ?_, decodeTextFirst_eq kind bytes, ?_, ?_, ?_⟩
  · rintro rfl
    exact ⟨rfl, rfl⟩
  · rintro body rfl
    constructor
    · intro metadata
      rw [decodeText_header]
      nofun
    · intro metadata
      rw [decode_header]
      cases CommitBody.readFields kind body with
      | ok record => simp
      | error fault => simp
  · intro body text other hstructured
    rw [CommitBody.readText_of_readStructured hstructured other]
    nofun
  · intro metadata h
    exact decode_of_decodeText h
  · intro fault h
    exact length_of_decode_error h
  · intro fault h
    exact length_of_decodeText_error h

-- A structured body that only says that the commit was compacted.
theorem readers_disjoint_compacted :
    (decode .plain (header ++ [0x18, 1])).result = .ok (plain { compacted := true }) ∧
      ∀ metadata, decodeText .plain (header ++ [0x18, 1]) ≠ .ok metadata := by
  obtain ⟨htext, hstructured⟩ := (readers_disjoint .plain (header ++ [0x18, 1])).2.1 _ rfl
  exact ⟨(hstructured _).mpr ⟨.plain { compacted := true }, rfl, rfl⟩, htext⟩

end Metadata

end TableHistory
