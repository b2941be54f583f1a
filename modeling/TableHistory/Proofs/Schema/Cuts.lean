import TableHistory.Proofs.Schema.Fronts

namespace TableHistory.Schema

open Wire

variable {α β : Type} {count : Nat}

namespace Cell

-- The value of which only the first occurrences are left.
def keep (count : Nat) : {α : Type} → Cell α → α → α
  | _, single shape, value => if count = 0 then shape.wire.zero else value
  | _, optional _, value => if count = 0 then none else value
  | _, repeated _, values => values.take count
  | _, keyed _, map => map.take count

theorem occurrences_keep {cell : Cell α} (h : cell.isZero cell.zero = true) (value : α) :
    cell.occurrences (cell.keep count value) = (cell.occurrences value).take count := by
  cases cell with
  | single shape =>
      cases count with
      | zero => exact occurrences_of_isZero h
      | succ count =>
          by_cases hz : shape.wire.isZero value = true
          · simp [keep, occurrences, hz]
          · simp [keep, occurrences, hz]
  | optional shape =>
      cases count with
      | zero => rfl
      | succ count => cases value <;> simp [keep, occurrences]
  | repeated shape => exact List.map_take
  | keyed shape => exact List.map_take

end Cell

namespace Fields

def keep : Nat → {β : Type} → Fields β → β → β
  | _, _, nil, () => ()
  | count, _, cons field rest, (value, values) =>
    (field.cell.keep count value, rest.keep (count - (field.chunks value).length) values)

theorem chunks_keep {fields : Fields β} (h : fields.isZero fields.zero = true) (values : β) :
    fields.chunks (fields.keep count values) = (fields.chunks values).take count := by
  induction fields generalizing count with
  | nil => exact List.take_nil.symm
  | cons field rest ih =>
      obtain ⟨hcell, hrest⟩ := Bool.and_eq_true_iff.mp h
      have hfield : field.chunks (field.cell.keep count values.1) =
          (field.chunks values.1).take count := by
        simp only [Field.chunks, Cell.occurrences_keep hcell, List.map_take]
      have hsplit : (cons field rest).chunks values =
          field.chunks values.1 ++ rest.chunks values.2 := rfl
      rw [hsplit, List.take_append, ← hfield, ← ih hrest]
      rfl

-- Fields that stand in the order of their tags are written in that order.
theorem chunks_ascending {fields : Fields β} (h : fields.tags.Pairwise (· < ·)) (values : β) :
    (fields.chunks values).Pairwise fun left right => left.tag ≤ right.tag := by
  induction fields with
  | nil => exact .nil
  | cons field rest ih =>
      obtain ⟨hleast, hrest⟩ := List.pairwise_cons.mp h
      have hown : ∀ chunk ∈ field.chunks values.1, chunk.tag = field.tag := by
        intro chunk hc
        obtain ⟨occurrence, _, rfl⟩ := List.mem_map.mp hc
        rfl
      refine List.pairwise_append.mpr ⟨?_, ih hrest values.2, ?_⟩
      · apply List.pairwise_of_forall_mem_list
        intro left hl right hr
        exact Nat.le_of_eq ((hown left hl).trans (hown right hr).symm)
      · intro left hl right hr
        have hlt := hleast right.tag (tag_mem_of_mem_chunks hr)
        have hl := hown left hl
        omega

end Fields

theorem Chunk.sort_of_ascending {chunks : List Chunk}
    (h : chunks.Pairwise fun left right => left.tag ≤ right.tag) : sort chunks = chunks := by
  induction chunks with
  | nil => rfl
  | cons chunk chunks ih =>
      obtain ⟨hleast, hrest⟩ := List.pairwise_cons.mp h
      have hsort : sort (chunk :: chunks) = chunk.insert (sort chunks) := rfl
      rw [hsort, ih hrest, insert_of_le hleast]

namespace Message

-- Records whose fields stand in the order of their tags, and whose zero is not written.
structure Orderly (message : Message α) : Prop where
  ascending : message.fields.tags.Pairwise (· < ·)
  zero : message.fields.isZero message.fields.zero = true

variable {message : Message α}

-- The record of which only the first fields on the wire are left, each entry of a map being one.
def keep (message : Message α) (count : Nat) (value : α) : α :=
  message.pack (message.fields.keep count (message.unpack value))

theorem chunks_keep (h : message.Orderly) (value : α) :
    message.chunks (message.keep count value) = (message.chunks value).take count := by
  have hsort : ∀ values, Chunk.sort (message.fields.chunks values) = message.fields.chunks values :=
    fun values => Chunk.sort_of_ascending (Fields.chunks_ascending h.ascending values)
  unfold chunks keep
  rw [message.unpack_pack, hsort, hsort, Fields.chunks_keep h.zero]

-- At least one field is missing, and the bytes are those of the fields before it.
def CutAfter (message : Message α) (value : α) (count : Nat) (front : Bytes) : Prop :=
  count < (message.chunks value).length ∧
    front = ((message.chunks value).take count).flatMap Chunk.bytes

theorem CutAfter.eq_write {value : α} {front : Bytes} (hm : message.Orderly)
    (h : message.CutAfter value count front) :
    front = message.write (message.keep count value) := by
  rw [h.2, write, chunks_keep hm]

-- The front of a body is read only if it ends with a field, and then as what is left of the record.
theorem read_cut_iff {value other : α} {front more : Bytes} (hm : message.Orderly)
    (hf : message.fields.TakesFronts) (hr : message.Restores levelLimit id)
    (hs : (message.write value).length < sizeLimit) (hcut : message.write value = front ++ more)
    (hmore : more ≠ []) :
    message.read front = .ok other ↔
      ∃ count, message.CutAfter value count front ∧ other = message.keep count value := by
  have hwhole := hr value hs
  have hlength : front.length < sizeLimit := by
    rw [hcut, List.length_append] at hs
    omega
  constructor
  · intro hread
    obtain ⟨pieces, rfl, hrun⟩ := (read_iff hf).mp hread
    rw [← flatten_chunks] at hcut
    obtain ⟨others, hpieces, rfl, _⟩ := run_behind_run hrun hwhole hcut
    have hothers : others ≠ [] := by
      rintro rfl
      exact hmore rfl
    have hcount := congrArg List.length hpieces
    rw [List.length_map, List.length_append] at hcount
    have htake : pieces = ((message.chunks value).take pieces.length).map Chunk.bytes := by
      rw [List.map_take, hpieces, List.take_left' rfl]
    have hcutAfter : message.CutAfter value pieces.length pieces.flatten := by
      constructor
      · have := List.length_pos_iff.mpr hothers
        omega
      · conv_lhs => rw [htake]
        rw [List.flatMap_def]
    refine ⟨pieces.length, hcutAfter, ?_⟩
    have hkept : Run (Consumes (message.mergeField levelLimit))
        ((message.chunks (message.keep pieces.length value)).map Chunk.bytes) message.zero
        (message.keep pieces.length value) := by
      apply hr
      rwa [← hcutAfter.eq_write hm]
    rw [chunks_keep hm, ← htake] at hkept
    exact eq_of_runs hrun hkept
  · rintro ⟨count, hcutAfter, rfl⟩
    have hfront := hcutAfter.eq_write hm
    rw [hfront] at hlength ⊢
    exact read_write hr _ hlength

end Message

end TableHistory.Schema
