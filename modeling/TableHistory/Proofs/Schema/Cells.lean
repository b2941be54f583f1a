import TableHistory.Proofs.OrderedMap
import TableHistory.Proofs.Wire.Forms
import TableHistory.Schema.Cell

namespace TableHistory.Schema.Cell

open Wire

-- An occurrence is merged as a whole, whatever stands behind it.
def Takes {α : Type} (cell : Cell α) (levels : Nat) (occurrence : WireType × Bytes)
    (old new : α) : Prop :=
  ∀ rest, cell.merge levels occurrence.1 old (occurrence.2 ++ rest) = .ok (new, rest)

def Restores {α : Type} (cell : Cell α) (levels : Nat) (back : α → α) : Prop :=
  ∀ value, (∀ occurrence ∈ cell.occurrences value, occurrence.2.length < sizeLimit) →
    Run (cell.Takes levels) (cell.occurrences value) cell.zero (back value)

variable {α : Type} {shape : Shape α} {levels : Nat} {back : α → α}

theorem read_of_readsBack {form : Form α} {value result : α}
    (h : form.ReadsBack levels value result) (hs : (form.write value).length < sizeLimit)
    (rest : Bytes) :
    form.read levels form.type form.zero (form.write value ++ rest) = .ok (result, rest) := by
  unfold Form.read
  rw [if_pos rfl]
  exact h hs rest

theorem occurrences_of_isZero {cell : Cell α} {value : α} (h : cell.isZero value = true) :
    cell.occurrences value = [] := by
  cases cell with
  | single shape => exact if_pos h
  | optional shape => rw [Option.isNone_iff_eq_none.mp h]; rfl
  | repeated shape => rw [List.isEmpty_iff.mp h]; rfl
  | keyed shape => simp only [occurrences, List.isEmpty_iff.mp h, List.map_nil]

theorem single_restores (h : shape.wire.Restores levels back) :
    (single shape).Restores levels back := by
  intro value hs
  by_cases hz : shape.wire.isZero value = true
  · have hnone : (single shape).occurrences value = [] := if_pos hz
    rw [hnone, h.omitted value hz]
    exact .nil _
  · have hone : (single shape).occurrences value = [(shape.wire.type, shape.wire.write value)] :=
      if_neg hz
    rw [hone] at hs ⊢
    have hsize := hs _ List.mem_cons_self
    have hback := h.written value (Bool.eq_false_iff.mpr hz)
    apply Run.cons _ (.nil _)
    intro rest
    exact read_of_readsBack hback hsize rest

theorem optional_restores (h : ∀ value, shape.wire.ReadsBack levels value (back value)) :
    (optional shape).Restores levels (Option.map back) := by
  intro value hs
  cases value with
  | none => exact .nil _
  | some value =>
      have hsize := hs _ List.mem_cons_self
      apply Run.cons _ (.nil _)
      intro rest
      have hread := read_of_readsBack (h value) hsize rest
      simp only [merge, zero, Option.getD_none, hread]
      rfl

theorem repeated_restores (h : ∀ value, shape.wire.ReadsBack levels value (back value)) :
    (repeated shape).Restores levels (List.map back) := by
  intro values hs
  -- What was read before stays in front, so the induction is on values behind any others.
  suffices hall : ∀ old, Run ((repeated shape).Takes levels) ((repeated shape).occurrences values)
      old (old ++ values.map back) from hall []
  induction values with
  | nil =>
      intro old
      rw [List.map_nil, List.append_nil]
      exact .nil old
  | cons value values ih =>
      intro old
      have hsize := hs _ List.mem_cons_self
      have hrest := ih (fun occurrence ho => hs occurrence (List.mem_cons_of_mem _ ho))
        (old ++ [back value])
      rw [List.append_assoc] at hrest
      apply Run.cons _ hrest
      intro rest
      have hread := read_of_readsBack (h value) hsize rest
      simp only [merge, hread]
      rfl

-- A part of a map entry that is left out when it is zero.
def entryPart (form : Form α) (tag : Nat) (value : α) : List Bytes :=
  if form.isZero value then [] else [Key.write ⟨tag, form.type⟩ ++ form.write value]

theorem flatten_entryPart (form : Form α) (tag : Nat) (value : α) :
    (entryPart form tag value).flatten = writeUnlessZero form tag value := by
  unfold entryPart writeUnlessZero
  split <;> simp

theorem entryName_run (name : String)
    (hs : (entryPart Form.text 1 name).flatten.length < sizeLimit) :
    Run (Consumes (readEntryField shape levels)) (entryPart Form.text 1 name)
      ("", shape.wire.zero) (name, shape.wire.zero) := by
  unfold entryPart at hs ⊢
  split
  · rename_i hz
    rw [show name = "" from (Form.text_restores levels).omitted name hz]
    exact .nil _
  · rename_i hz
    simp only [if_neg hz, List.flatten_singleton, List.length_append] at hs
    have hne : Key.write ⟨1, Form.text.type⟩ ++ Form.text.write name ≠ [] :=
      List.append_ne_nil_of_left_ne_nil (Key.write_ne_nil _) _
    refine .cons ⟨hne, ?_⟩ (.nil _)
    intro rest
    have hkey := Key.read_write ⟨1, Form.text.type⟩ (Form.text.write name ++ rest) (by decide)
    have hread : Form.text.read levels Form.text.type "" (Form.text.write name ++ rest) =
        .ok (name, rest) := read_of_readsBack (Form.text_readsBack levels name) (by omega) rest
    simp only [readEntryField, List.append_assoc, hkey, ok_bind, if_true, hread]
    rfl

theorem entryValue_run (name : String) (value : α) (h : shape.wire.Restores levels back)
    (hs : (entryPart shape.wire 2 value).flatten.length < sizeLimit) :
    Run (Consumes (readEntryField shape levels)) (entryPart shape.wire 2 value)
      (name, shape.wire.zero) (name, back value) := by
  unfold entryPart at hs ⊢
  split
  · rename_i hz
    rw [h.omitted value hz]
    exact .nil _
  · rename_i hz
    simp only [if_neg hz, List.flatten_singleton, List.length_append] at hs
    have hne : Key.write ⟨2, shape.wire.type⟩ ++ shape.wire.write value ≠ [] :=
      List.append_ne_nil_of_left_ne_nil (Key.write_ne_nil _) _
    refine .cons ⟨hne, ?_⟩ (.nil _)
    intro rest
    have htag : IsTag 2 := by decide
    have hkey := Key.read_write ⟨2, shape.wire.type⟩ (shape.wire.write value ++ rest) htag
    have hback := h.written value (Bool.eq_false_iff.mpr hz)
    have hread := read_of_readsBack hback (by omega) rest
    simp only [readEntryField, List.append_assoc, hkey, ok_bind, hread,
      show ¬ (2 = 1) by omega, if_false, if_true]
    rfl

theorem readEntry_writeEntry (entry : String × α) (h : shape.wire.Restores levels back)
    (hs : (writeEntry shape entry).length < sizeLimit) (rest : Bytes) :
    readDelimited (readEntryField shape levels) ("", shape.wire.zero)
      (writeEntry shape entry ++ rest) = .ok ((entry.1, back entry.2), rest) := by
  have hflat : (entryPart Form.text 1 entry.1 ++ entryPart shape.wire 2 entry.2).flatten =
      writeUnlessZero .text 1 entry.1 ++ writeUnlessZero shape.wire 2 entry.2 := by
    rw [List.flatten_append, flatten_entryPart, flatten_entryPart]
  have hlen := length_lt_of_writeDelimited hs
  rw [← hflat] at hlen
  have hparts := hlen
  rw [List.flatten_append, List.length_append] at hparts
  have hname : Run (Consumes (readEntryField shape levels)) (entryPart Form.text 1 entry.1)
      ("", shape.wire.zero) (entry.1, shape.wire.zero) := entryName_run entry.1 (by omega)
  have hvalue := entryValue_run entry.1 entry.2 h (by omega)
  unfold writeEntry
  rw [← hflat]
  exact readDelimited_of_run (hname.append hvalue) hlen rest

-- Each entry costs a level.
theorem keyed_restores (h : shape.wire.Restores levels back) :
    (keyed shape).Restores (levels + 1) (OrderedMap.mapValues back) := by
  intro map hs
  have hback : (map.entries.map fun entry => (entry.1, back entry.2)).foldl
      (fun map entry => map.insert entry.1 entry.2) .empty = map.mapValues back :=
    OrderedMap.ofList_entries (map.mapValues back)
  rw [← hback]
  simp only [occurrences, zero] at hs ⊢
  generalize (OrderedMap.empty : OrderedMap String α) = old
  generalize map.entries = entries at hs ⊢
  induction entries generalizing old with
  | nil => exact .nil _
  | cons entry entries ih =>
      have hsize := hs _ List.mem_cons_self
      have hrest := ih (old.insert entry.1 (back entry.2))
        fun occurrence ho => hs occurrence (List.mem_cons_of_mem _ ho)
      apply Run.cons _ hrest
      intro rest
      have hread := readEntry_writeEntry entry h hsize rest
      simp only [merge, hread]
      rfl

section Exact

variable (levels)

theorem optional_exact (h : ∀ value, shape.wire.ReadsBack levels value value) :
    (optional shape).Restores levels id := by
  rw [← Option.map_id]
  exact optional_restores h

theorem repeated_exact (h : ∀ value, shape.wire.ReadsBack levels value value) :
    (repeated shape).Restores levels id := by
  rw [← List.map_id_fun]
  exact repeated_restores h

theorem keyed_exact (h : shape.wire.Restores levels id) :
    (keyed shape).Restores (levels + 1) id := by
  rw [show id = OrderedMap.mapValues id from funext fun map => (map.mapValues_id).symm]
  exact keyed_restores h

theorem single_string : (single .string).Restores levels id :=
  single_restores (Form.text_restores levels)

theorem single_bool : (single .bool).Restores levels id :=
  single_restores (Form.bool_restores levels)

theorem single_int64 : (single .int64).Restores levels id :=
  single_restores (Form.int64_restores levels)

theorem single_int32 : (single .int32).Restores levels id :=
  single_restores (Form.int32_restores levels)

theorem single_uint32 : (single .uint32).Restores levels id :=
  single_restores (Form.uint32_restores levels)

theorem optional_string : (optional .string).Restores levels id :=
  optional_exact levels (Form.text_readsBack levels)

theorem optional_int64 : (optional .int64).Restores levels id :=
  optional_exact levels (Form.int64_readsBack levels)

theorem optional_blob : (optional .blob).Restores levels id :=
  optional_exact levels (Form.blob_readsBack levels)

theorem repeated_string : (repeated .string).Restores levels id :=
  repeated_exact levels (Form.text_readsBack levels)

theorem keyed_string : (keyed .string).Restores (levels + 1) id :=
  keyed_exact levels (Form.text_restores levels)

theorem keyed_int64 : (keyed .int64).Restores (levels + 1) id :=
  keyed_exact levels (Form.int64_restores levels)

theorem keyed_double :
    (keyed .double).Restores (levels + 1) (OrderedMap.mapValues Double.unsignZero) :=
  keyed_restores (Form.double_restores levels)

end Exact

end TableHistory.Schema.Cell
