import TableHistory.Proofs.Commit.Encodings
import TableHistory.Proofs.Record.Texts
import TableHistory.Proofs.Schema.Layouts

namespace TableHistory

open Schema Text
open Framed (header)

theorem WriteStat.each_written (value : WriteStat) :
    WriteStat.message.fields.Each Field.Written (WriteStat.message.unpack value) := by
  have hstring : ∀ {tag name key} {value : Option String},
      (Field.of tag name key (.optional .string)).Written value :=
    Field.written_optional_string _
  have hcount : ∀ {tag name key} {value : Int64},
      (Field.of tag name key (.single .int64)).Written value :=
    Field.written_int64 _
  have htime : ∀ {tag name key} {value : Option Int64},
      (Field.of tag name key (.optional .int64)).Written value :=
    Field.written_optional_int64 _
  exact ⟨hstring, hstring, hstring, hcount, hcount, hcount, hcount, hcount, hcount, hstring,
    hstring, hcount, hcount, hcount, hcount, hcount, hcount, hcount, hcount, htime, htime, trivial⟩

theorem WriteStats.written (value : WriteStats) : Written WriteStats.message.text value := by
  refine Written.via WriteStats.mk WriteStats.stats (Written.list ?_) rfl
  intro stat _
  exact Message.written_record WriteStat.message (WriteStat.each_written stat) (by decide)

theorem ReplacedFiles.written (value : ReplacedFiles) :
    Written ReplacedFiles.message.text value := by
  refine Written.via ReplacedFiles.mk ReplacedFiles.fileIds (Written.list ?_) rfl
  intro file _
  exact Written.text file

theorem written_stats {tag : Nat} {name key : String} {nullable : Bool}
    (stats : OrderedMap String WriteStats) :
    (Schema.Field.mk tag name key (.keyed WriteStats.message.shape) nullable).Written stats :=
  Field.written_keyed (fun entry _ => WriteStats.written entry.2)
    fun entry _ => WriteStats.text_restores entry.2

theorem written_strings {tag : Nat} {name key : String} {nullable : Bool}
    (map : OrderedMap String String) :
    (Schema.Field.mk tag name key (.keyed .string) nullable).Written map :=
  Field.written_keyed (fun entry _ => .text entry.2) fun entry _ => Form.text_restores entry.2

theorem CommitRecord.written (record : CommitRecord) :
    Written CommitRecord.message.text record := by
  apply Message.written_record CommitRecord.message _ (by decide)
  exact ⟨written_stats _, written_strings _, Field.written_bool _,
    Field.written_optional_string _, trivial⟩

theorem ReplaceRecord.written (record : ReplaceRecord) :
    Written ReplaceRecord.message.text record := by
  apply Message.written_record ReplaceRecord.message _ (by decide)
  exact ⟨written_stats _, written_strings _, Field.written_bool _,
    Field.written_optional_string _,
    Field.written_keyed (fun entry _ => ReplacedFiles.written entry.2)
      fun entry _ => ReplacedFiles.text_restores entry.2, trivial⟩

namespace CommitBody

-- The bytes are one of the ways to lay out the body in text.
def Lays : CommitBody → Bytes → Prop
  | plain record => Schema.Lays CommitRecord.message.text record
  | replace record => Schema.Lays ReplaceRecord.message.text record

variable {body : CommitBody} {before bytes after : Bytes}

theorem Lays.ne_nil (h : body.Lays bytes) : bytes ≠ [] := by
  cases body with
  | plain record => exact (Schema.Lays.takes h).begins.ne_nil
  | replace record => exact (Schema.Lays.takes h).begins.ne_nil

theorem readText_layout (h : body.Lays bytes) (hb : Blank before) (ha : Blank after) :
    readText body.kind (before ++ (bytes ++ after)) = .ok body := by
  cases body with
  | plain record =>
      have hdecode := Form.decode_takes (Schema.Lays.takes h) hb ha
      simp only [kind, readText, readBody, hdecode, mapError_ok, Except.map]
  | replace record =>
      have hdecode := Form.decode_takes (Schema.Lays.takes h) hb ha
      simp only [kind, readText, readBody, hdecode, mapError_ok, Except.map]

-- What is written for a body is one of its layouts.
theorem lays_writeText (body : CommitBody) : body.Lays (body.writeText body.kind) := by
  cases body with
  | plain record => exact CommitRecord.written record 0
  | replace record => exact ReplaceRecord.written record 0

end CommitBody

namespace Metadata

-- Laid out in any way, a commit is read as a commit of its kind, and both readers of metadata give
-- its metadata.
theorem decode_layout {body : CommitBody} {before bytes after : Bytes} (h : body.Lays bytes)
    (hb : Blank before) (ha : Blank after) :
    CommitBody.readText body.kind (before ++ (bytes ++ after)) = .ok body ∧
      (decode body.kind (before ++ (bytes ++ after))).result = .ok (ofBody body) ∧
      decodeText body.kind (before ++ (bytes ++ after)) = .ok (ofBody body) := by
  have hread := CommitBody.readText_layout h hb ha
  have hne : before ++ (bytes ++ after) ≠ [] := by
    intro hempty
    rw [List.append_eq_nil_iff, List.append_eq_nil_iff] at hempty
    exact h.ne_nil hempty.2.1
  have htext : decodeText body.kind (before ++ (bytes ++ after)) = .ok (ofBody body) := by
    rw [decodeText_result hne, hread]
  exact ⟨hread, decode_of_decodeText htext, htext⟩

-- A record with one write stat, all of whose values are the zero ones.
def oneStat : CommitRecord where
  partitionToWriteStats := .ofList [("p", { stats := [{}] })]

def bytesOf (text : String) : Bytes := text.toList.map ascii

-- Its members out of order, one of them missing, with two that the records do not know.
def oneStatLayout : Bytes :=
  bytesOf "\x7b\"operationType\" :null,\"note\":[-0.5e2,\"\\ud800\"]," ++
    bytesOf "\"partitionToWriteStats\":\x7b\"p\":[\x7b\"x\":\x7b\x7d\x7d]\x7d," ++
    bytesOf "\"extraMetadata\": null \x7d"

-- A member with its name spelled as it is written.
def memberOf (name : String) (gap margin value : Bytes) (hg : Blank gap) (hm : Blank margin) :
    Named where
  name := name
  spelling := Quoted.behindQuote name
  spells := Quoted.spells_behindQuote name
  gap := gap
  gap_blank := hg
  margin := margin
  margin_blank := hm
  value := value

theorem isValue_note : IsValue (bytesOf "[-0.5e2,\"\\ud800\"]") := by
  have hfive : Number.Digits [ascii '5'] := ⟨by decide, List.all_eq_true.mp rfl⟩
  have htwo : Number.Digits [ascii '2'] := ⟨by decide, List.all_eq_true.mp rfl⟩
  have hexponent : Number.Exponent [ascii 'e', ascii '2'] := .plain (by decide) htwo
  have hnumber : IsValue (bytesOf "-0.5e2") := .number (.negative .zero (.digits hfive) hexponent)
  have hunit : Quoted.Hex (((13 * 16 + 8) * 16 + 0) * 16 + 0) (bytesOf "d800") :=
    .digits ⟨by decide, .inl rfl⟩ ⟨by decide, .inl rfl⟩ ⟨by decide, .inl rfl⟩ ⟨by decide, .inl rfl⟩
  have htext : IsValue (bytesOf "\"\\ud800\"") := .text (.cons (.unit hunit) .close)
  have hs : Spread .list [bytesOf "-0.5e2", bytesOf "\"\\ud800\""] _ :=
    .first Blank.nil (.next Blank.nil Blank.nil (.close Blank.nil))
  refine .list hs ?_
  intro item hi
  simp only [List.mem_cons, List.not_mem_nil, or_false] at hi
  rcases hi with rfl | rfl
  · exact hnumber
  · exact htext

theorem lays_zeroStat : Schema.Lays WriteStat.message.text {}
    (bytesOf "\x7b\"x\":\x7b\x7d\x7d") := by
  have hempty : Spread .object (([] : List Spaced).map Spaced.bytes) _ := .empty Blank.nil
  have hx : IsValue (bytesOf "\x7b\x7d") := .object hempty nofun nofun
  have hs : Spread .object
      ([memberOf "x" [] [] (bytesOf "\x7b\x7d") Blank.nil Blank.nil].map Named.bytes) _ :=
    .first Blank.nil (.close Blank.nil)
  refine .record_zero WriteStat.message.pack WriteStat.message.unpack hs (by decide) (by decide) ?_
  intro member hm
  rw [List.mem_singleton.mp hm]
  exact ⟨by decide, hx⟩

theorem lays_oneStats : Schema.Lays WriteStats.message.text { stats := [{}] }
    (bytesOf "[\x7b\"x\":\x7b\x7d\x7d]") := by
  have hs : Spread .list
      ([(bytesOf "\x7b\"x\":\x7b\x7d\x7d", ({} : WriteStat))].map Prod.fst) _ :=
    .first Blank.nil (.close Blank.nil)
  refine .via WriteStats.mk WriteStats.stats (.list hs ?_)
  intro item hi
  rw [List.mem_singleton.mp hi]
  exact lays_zeroStat

theorem lays_onePartition :
    Schema.Lays (.mapOf WriteStats.message.text) oneStat.partitionToWriteStats
      (bytesOf "\x7b\"p\":[\x7b\"x\":\x7b\x7d\x7d]\x7d") := by
  have hs : Spread .object
      (([(memberOf "p" [] [] (bytesOf "[\x7b\"x\":\x7b\x7d\x7d]") Blank.nil Blank.nil,
        ({ stats := [{}] } : WriteStats))].map Prod.fst).map Named.bytes) _ :=
    .first Blank.nil (.close Blank.nil)
  refine .map hs (.of_eq rfl) ?_
  intro member hm
  rw [List.mem_singleton.mp hm]
  exact lays_oneStats

theorem blank_one : Blank [ascii ' '] := by decide

def oneStatMembers : List Named :=
  [memberOf "operationType" [ascii ' '] [] nullWord blank_one Blank.nil,
    memberOf "note" [] [] (bytesOf "[-0.5e2,\"\\ud800\"]") Blank.nil Blank.nil,
    memberOf "partitionToWriteStats" [] [] (bytesOf "\x7b\"p\":[\x7b\"x\":\x7b\x7d\x7d]\x7d")
      Blank.nil Blank.nil,
    memberOf "extraMetadata" [] [ascii ' '] nullWord Blank.nil blank_one]

theorem lays_oneStat : (CommitBody.plain oneStat).Lays oneStatLayout := by
  have hs : Spread .object (oneStatMembers.map Named.bytes) _ :=
    .first Blank.nil (.next Blank.nil Blank.nil (.next Blank.nil Blank.nil
      (.next Blank.nil Blank.nil (.close blank_one))))
  have hpresent : CommitRecord.message.fields.Each
      (fun field value => ∀ member ∈ oneStatMembers, member.name = field.key →
        Schema.Lays field.form value member.value) (CommitRecord.message.unpack oneStat) := by
    refine ⟨?_, ?_, ?_, ?_, trivial⟩
    all_goals
      intro member hm hname
      simp only [oneStatMembers, List.mem_cons, List.not_mem_nil, or_false] at hm
      rcases hm with rfl | rfl | rfl | rfl
    all_goals first
      | exact absurd hname (by decide)
      | exact .none _
      | exact .given _ lays_onePartition (by decide)
      | exact .null _ _
  have habsent : CommitRecord.message.fields.Each
      (fun field value => field.key ∉ oneStatMembers.map Named.name → value = field.cell.zero)
      (CommitRecord.message.unpack oneStat) := by
    refine ⟨fun hmissing => ?_, fun _ => rfl, fun _ => rfl, fun _ => rfl, trivial⟩
    exact absurd (by decide) hmissing
  have hunknown : ∀ member ∈ oneStatMembers,
      member.name ∉ CommitRecord.message.fields.places.names → IsValue member.value := by
    intro member hm hname
    simp only [oneStatMembers, List.mem_cons, List.not_mem_nil, or_false] at hm
    rcases hm with rfl | rfl | rfl | rfl
    · exact absurd (by decide) hname
    · exact isValue_note
    · exact absurd (by decide) hname
    · exact absurd (by decide) hname
  exact .record CommitRecord.message.pack CommitRecord.message.unpack hs (by decide) (by decide)
    (fun h => h.holds hpresent) (fun h => h.holds habsent) hunknown

theorem decode_layout_oneStat :
    (CommitBody.plain oneStat).Lays oneStatLayout ∧
      CommitBody.readText .plain ([ascii ' '] ++ (oneStatLayout ++ [ascii '\n'])) =
        .ok (.plain oneStat) ∧
      (decode .plain ([ascii ' '] ++ (oneStatLayout ++ [ascii '\n']))).result =
        .ok (ofBody (.plain oneStat)) := by
  have hafter : Blank [ascii '\n'] := by decide
  obtain ⟨hread, hdecode, _⟩ := decode_layout lays_oneStat blank_one hafter
  exact ⟨lays_oneStat, hread, hdecode⟩

end Metadata

end TableHistory
