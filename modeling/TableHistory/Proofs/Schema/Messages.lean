import TableHistory.Framed
import TableHistory.Proofs.Schema.Fields

namespace TableHistory.Schema

open Wire

theorem Chunk.mem_insert {chunk other : Chunk} {chunks : List Chunk} :
    other ∈ chunk.insert chunks ↔ other = chunk ∨ other ∈ chunks := by
  induction chunks with
  | nil => simp [insert]
  | cons next rest ih =>
      unfold insert
      by_cases ht : chunk.tag ≤ next.tag
      · rw [if_pos ht, List.mem_cons]
      · rw [if_neg ht, List.mem_cons, ih, List.mem_cons, or_left_comm]

theorem Chunk.mem_sort {chunk : Chunk} {chunks : List Chunk} :
    chunk ∈ sort chunks ↔ chunk ∈ chunks := by
  induction chunks with
  | nil => rfl
  | cons first rest ih =>
      rw [List.mem_cons, ← ih]
      exact mem_insert

theorem Chunk.insert_append {chunk : Chunk} {lower : List Chunk} (rest : List Chunk)
    (h : ∀ other ∈ lower, other.tag < chunk.tag) :
    chunk.insert (lower ++ rest) = lower ++ chunk.insert rest := by
  induction lower with
  | nil => rfl
  | cons next lower ih =>
      have hnext : ¬ chunk.tag ≤ next.tag := Nat.not_le.mpr (h next List.mem_cons_self)
      have hlower := ih fun other ho => h other (List.mem_cons_of_mem _ ho)
      simp only [List.cons_append, insert, if_neg hnext, hlower]

theorem Chunk.insert_of_le {chunk : Chunk} {rest : List Chunk}
    (h : ∀ other ∈ rest, chunk.tag ≤ other.tag) : chunk.insert rest = chunk :: rest := by
  cases rest with
  | nil => rfl
  | cons next rest => exact if_pos (h next List.mem_cons_self)

-- Those of the chunks that have one of the tags, tag by tag.
def Chunk.byTag (tags : List Nat) (chunks : List Chunk) : List Chunk :=
  tags.flatMap fun tag => chunks.filter fun chunk => chunk.tag = tag

theorem Chunk.tag_mem_of_mem_byTag {tags : List Nat} {chunks : List Chunk} {chunk : Chunk}
    (h : chunk ∈ byTag tags chunks) : chunk.tag ∈ tags := by
  obtain ⟨tag, htag, hc⟩ := List.mem_flatMap.mp h
  have hsame : chunk.tag = tag := by simpa using (List.mem_filter.mp hc).2
  rwa [hsame]

theorem Chunk.byTag_cons_of_notMem {tags : List Nat} {chunks : List Chunk} {chunk : Chunk}
    (h : chunk.tag ∉ tags) : byTag tags (chunk :: chunks) = byTag tags chunks := by
  have hsame : ∀ tag ∈ tags, (chunk :: chunks).filter (fun chunk => chunk.tag = tag) =
      chunks.filter fun chunk => chunk.tag = tag := by
    intro tag htag
    have hne : chunk.tag ≠ tag := fun he => h (he ▸ htag)
    exact List.filter_cons_of_neg (by simpa using hne)
  unfold byTag
  rw [List.flatMap_def, List.flatMap_def, List.map_congr_left hsame]

theorem Chunk.insert_byTag {tags : List Nat} {chunk : Chunk} (chunks : List Chunk)
    (hs : tags.Pairwise (· < ·)) (h : chunk.tag ∈ tags) :
    chunk.insert (byTag tags chunks) = byTag tags (chunk :: chunks) := by
  -- The chunk passes all that have a lower tag, and goes in front of the first of its own.
  induction tags with
  | nil => cases h
  | cons tag tags ih =>
      obtain ⟨hleast, hrest⟩ := List.pairwise_cons.mp hs
      have hcons : ∀ chunks, byTag (tag :: tags) chunks =
          (chunks.filter fun chunk => chunk.tag = tag) ++ byTag tags chunks := fun _ => rfl
      rw [hcons, hcons]
      by_cases ht : chunk.tag = tag
      · have hfresh : chunk.tag ∉ tags := fun hm => Nat.lt_irrefl _ (ht ▸ hleast _ hm)
        rw [byTag_cons_of_notMem hfresh, List.filter_cons_of_pos (by simpa using ht)]
        apply insert_of_le
        intro other ho
        rcases List.mem_append.mp ho with ho | ho
        · have hother : other.tag = tag := by simpa using (List.mem_filter.mp ho).2
          omega
        · have hother := hleast _ (tag_mem_of_mem_byTag ho)
          omega
      · have hm : chunk.tag ∈ tags := (List.mem_cons.mp h).resolve_left ht
        have hlower : ∀ other ∈ chunks.filter fun chunk => chunk.tag = tag,
            other.tag < chunk.tag := by
          intro other ho
          have hother : other.tag = tag := by simpa using (List.mem_filter.mp ho).2
          have htag := hleast _ hm
          omega
        rw [insert_append _ hlower, ih hrest hm, List.filter_cons_of_neg (by simpa using ht)]

-- Sorted chunks go by their tags from the lowest on.
theorem Chunk.sort_eq {tags : List Nat} {chunks : List Chunk} (hs : tags.Pairwise (· < ·))
    (h : ∀ chunk ∈ chunks, chunk.tag ∈ tags) : sort chunks = byTag tags chunks := by
  induction chunks with
  | nil => simp [sort, byTag]
  | cons chunk chunks ih =>
      have hchunks := ih fun other ho => h other (List.mem_cons_of_mem _ ho)
      rw [← insert_byTag chunks hs (h chunk List.mem_cons_self), ← hchunks]
      rfl

theorem Field.filter_chunks {α : Type} (field : Field α) (value : α) (tag : Nat) :
    ((field.chunks value).filter fun chunk => chunk.tag = tag) =
      if field.tag = tag then field.chunks value else [] := by
  have htag : ∀ chunk ∈ field.chunks value, chunk.tag = field.tag := by
    intro chunk hc
    obtain ⟨occurrence, _, rfl⟩ := List.mem_map.mp hc
    rfl
  by_cases ht : field.tag = tag
  · rw [if_pos ht]
    apply List.filter_eq_self.mpr
    intro chunk hc
    simpa using (htag chunk hc).trans ht
  · rw [if_neg ht]
    apply List.filter_eq_nil_iff.mpr
    intro chunk hc
    simpa [htag chunk hc] using ht

namespace Message

variable {α γ : Type} {message : Message α} {levels : Nat} {back : α → α}

theorem length_chunk_le {value : α} {chunk : Chunk}
    (h : chunk ∈ message.fields.chunks (message.unpack value)) :
    chunk.bytes.length ≤ (message.write value).length := by
  have hm : chunk ∈ message.chunks value := Chunk.mem_sort.mpr h
  obtain ⟨front, behind, he⟩ := List.append_of_mem hm
  unfold write
  rw [he, List.flatMap_append, List.flatMap_cons]
  simp only [List.length_append]
  omega

theorem length_chunk_lt {value : α} (hs : (message.write value).length < sizeLimit) :
    ∀ chunk ∈ message.fields.chunks (message.unpack value), chunk.bytes.length < sizeLimit := by
  intro chunk hc
  exact Nat.lt_of_le_of_lt (length_chunk_le hc) hs

-- A record takes a chunk as its fields do.
theorem consumes_of_takes {chunk : Chunk} {old new : message.β}
    (h : message.fields.Takes message.name levels chunk old new) :
    Consumes (message.mergeField levels) chunk.bytes (message.pack old) (message.pack new) := by
  obtain ⟨htag, type, payload, hbytes, hmerge⟩ := h
  rw [hbytes]
  constructor
  · exact List.append_ne_nil_of_left_ne_nil (Key.write_ne_nil _) _
  · intro rest
    have hkey := Key.read_write ⟨chunk.tag, type⟩ (payload ++ rest) htag
    simp only [mergeField, List.append_assoc, hkey, ok_bind, message.unpack_pack, hmerge rest,
      pure_eq_ok]

theorem run_of_run {chunks : List Chunk} {first last : message.β}
    (h : Run (message.fields.Takes message.name levels) chunks first last) :
    Run (Consumes (message.mergeField levels)) (chunks.map Chunk.bytes) (message.pack first)
      (message.pack last) :=
  h.map Chunk.bytes message.pack fun _ _ _ _ htake => consumes_of_takes htake

-- Field by field, the record is read from zero on to what comes back for it.
def Restores (message : Message α) (levels : Nat) (back : α → α) : Prop :=
  ∀ value, (message.write value).length < sizeLimit →
    Run (Consumes (message.mergeField levels)) ((message.chunks value).map Chunk.bytes)
      message.zero (back value)

theorem restores_of_fields {backs : message.β → message.β} (ht : message.fields.WellTagged)
    (h : message.fields.Restores levels backs)
    (hb : ∀ value, message.pack (backs (message.unpack value)) = back value) :
    message.Restores levels back := by
  intro value hs
  have hrun : Run (message.fields.Takes message.name levels)
      (message.fields.chunks (message.unpack value)) message.fields.zero
      (backs (message.unpack value)) :=
    Fields.run_chunks h ht _ (length_chunk_lt hs)
  rw [← hb value]
  exact run_of_run (Fields.run_sort hrun)

theorem flatten_chunks (message : Message α) (value : α) :
    ((message.chunks value).map Chunk.bytes).flatten = message.write value := by
  rw [write, List.flatMap_def]

theorem shape_readsBack (h : message.Restores levels back) (value : α) :
    message.shape.wire.ReadsBack (levels + 1) value (back value) := by
  intro hs rest
  have hlen := length_lt_of_writeDelimited hs
  have hrun := h value hlen
  rw [← flatten_chunks] at hlen
  have hread := readDelimited_of_run hrun hlen rest
  rw [flatten_chunks] at hread
  exact hread

theorem write_of_isZero {value : α}
    (h : message.fields.isZero (message.unpack value) = true) : message.write value = [] := by
  unfold write chunks
  rw [Fields.chunks_of_isZero h]
  rfl

-- Nothing is written for a zero record, so nothing but zero can come back for it.
theorem shape_restores (h : message.Restores levels back) :
    message.shape.wire.Restores (levels + 1) back where
  omitted := by
    intro value hz
    have hsize : (message.write value).length < sizeLimit := by
      rw [write_of_isZero hz]
      decide
    have hrun := h value hsize
    unfold chunks at hrun
    rw [Fields.chunks_of_isZero hz] at hrun
    exact (Run.nil_iff.mp hrun).symm
  written := fun value _ => shape_readsBack h value

-- Reads a body where as many levels of nesting are left.
def readAt (message : Message α) (levels : Nat) (bytes : Bytes) : Except Fault α :=
  (readFields (message.mergeField levels) 0 bytes.length message.zero bytes).map Prod.fst

theorem readAt_of_run {pieces : List Bytes} {last : α}
    (h : Run (Consumes (message.mergeField levels)) pieces message.zero last) :
    message.readAt levels pieces.flatten = .ok last := by
  have hread := readFields_of_run h pieces.flatten.length [] (length_le_of_run h)
  rw [List.append_nil, List.length_nil] at hread
  unfold readAt
  rw [hread]
  rfl

theorem read_of_run {pieces : List Bytes} {last : α}
    (h : Run (Consumes (message.mergeField levelLimit)) pieces message.zero last) :
    message.read pieces.flatten = .ok last :=
  readAt_of_run h

theorem read_write (h : message.Restores levelLimit back) (value : α)
    (hs : (message.write value).length < sizeLimit) :
    message.read (message.write value) = .ok (back value) := by
  rw [← flatten_chunks]
  exact read_of_run (h value hs)

-- The body of one type of record, read as another one.
theorem read_other {written : Message γ} {value : γ} {values : message.β}
    (h : Run (message.fields.Takes message.name levelLimit)
      (written.fields.chunks (written.unpack value)) message.fields.zero values) :
    message.read (written.write value) = .ok (message.pack values) := by
  rw [← flatten_chunks]
  exact read_of_run (run_of_run (Fields.run_sort h))

end Message

end TableHistory.Schema

namespace TableHistory.Framed

open Schema

variable {α γ : Type}

theorem body?_append (bytes : Bytes) : body? (header ++ bytes) = some bytes := by
  simp [body?]

-- The header only makes a body longer.
theorem length_write_lt {message : Message α} {value : α} {limit : Nat}
    (h : (write message value).length < limit) : (message.write value).length < limit := by
  unfold write at h
  rw [List.length_append] at h
  omega

theorem read_write {message : Message α} {back : α → α}
    (h : message.Restores Wire.levelLimit back) (value : α)
    (hs : (message.write value).length < Wire.sizeLimit) :
    read message (write message value) = .ok (back value) := by
  have hread := Message.read_write h value hs
  simp only [read, write, body?_append, hread, mapError_ok]

theorem read_other (message : Message α) (written : Message γ) {value : γ} {values : message.β}
    (h : Run (message.fields.Takes message.name Wire.levelLimit)
      (written.fields.chunks (written.unpack value)) message.fields.zero values) :
    read message (write written value) = .ok (message.pack values) := by
  have hread := Message.read_other h
  simp only [read, write, body?_append, hread, mapError_ok]

end TableHistory.Framed
