import TableHistory.Proofs.Schema.Fronts
import TableHistory.Proofs.Wire.Foreign

namespace TableHistory.Schema

open Wire

variable {α β : Type}

namespace Cell

-- The occurrences of every value may be read in any order.
def Commutes (cell : Cell α) (levels : Nat) : Prop :=
  ∀ value, (∀ occurrence ∈ cell.occurrences value, occurrence.2.length < sizeLimit) →
    (cell.occurrences value).Pairwise (Run.Commutes (cell.Takes levels))

variable {shape : Shape α} {levels : Nat} {back : α → α}

theorem single_commutes : (single shape).Commutes levels := by
  intro value _
  by_cases hz : shape.wire.isZero value = true
  · simp only [occurrences, if_pos hz, List.Pairwise.nil]
  · simp only [occurrences, if_neg hz, List.pairwise_singleton]

theorem optional_commutes : (optional shape).Commutes levels := by
  intro value _
  cases value with
  | none => exact .nil
  | some value => exact List.pairwise_singleton _ _

theorem keyed_takes_iff {entry : String × α} {old new : OrderedMap String α}
    (h : shape.wire.Restores levels back) (hs : (writeEntry shape entry).length < sizeLimit) :
    (keyed shape).Takes (levels + 1) (.delimited, writeEntry shape entry) old new ↔
      new = old.insert entry.1 (back entry.2) := by
  have hread := readEntry_writeEntry entry h hs
  simp only [Takes, merge, hread, ok_bind, pure_eq_ok, Except.ok.injEq, Prod.mk.injEq, and_true,
    forall_const]
  exact eq_comm

theorem keyed_swaps {left right : String × α} (h : shape.wire.Restores levels back)
    (hne : left.1 ≠ right.1) (hl : (writeEntry shape left).length < sizeLimit)
    (hr : (writeEntry shape right).length < sizeLimit) :
    Run.Swaps ((keyed shape).Takes (levels + 1)) (.delimited, writeEntry shape left)
      (.delimited, writeEntry shape right) := by
  intro first middle last hfirst hsecond
  rw [keyed_takes_iff h hl] at hfirst
  rw [keyed_takes_iff h hr] at hsecond
  refine ⟨first.insert right.1 (back right.2), (keyed_takes_iff h hr).mpr rfl, ?_⟩
  rw [keyed_takes_iff h hl, hsecond, hfirst, OrderedMap.insert_comm first hne]

theorem keyed_commutes (h : shape.wire.Restores levels back) :
    (keyed shape).Commutes (levels + 1) := by
  intro map hs
  have hsize : ∀ entry ∈ map.entries, (writeEntry shape entry).length < sizeLimit :=
    fun entry he => hs _ (List.mem_map.mpr ⟨entry, he, rfl⟩)
  apply List.pairwise_map.mpr
  apply map.ascending.imp_of_mem
  intro left right hl hr hlt
  have hne := OrderedMap.ne_of_compare_lt hlt
  exact ⟨keyed_swaps h hne (hsize left hl) (hsize right hr),
    keyed_swaps h hne.symm (hsize right hr) (hsize left hl)⟩

end Cell

namespace Fields

variable {message : String} {levels : Nat}

def Commutes (levels : Nat) : {β : Type} → Fields β → Prop
  | _, nil => True
  | _, cons field rest => field.cell.Commutes levels ∧ rest.Commutes levels

theorem takes_commute {fields : Fields β} {left right : Chunk} (hne : left.tag ≠ right.tag) :
    Run.Commutes (fields.Takes message levels) left right :=
  ⟨takes_swaps hne, takes_swaps hne.symm⟩

section Cons

variable {field : Field α} {rest : Fields β}

-- A chunk of the first field is an occurrence of its cell.
theorem takes_own_iff {occurrence : WireType × Bytes} {old new : α} {olds news : β}
    (ht : IsTag field.tag) :
    (cons field rest).Takes message levels
        ⟨field.tag, Key.write ⟨field.tag, occurrence.1⟩ ++ occurrence.2⟩ (old, olds) (new, news) ↔
      field.cell.Takes levels occurrence old new ∧ news = olds := by
  constructor
  · rintro ⟨_, type, payload, hbytes, hmerges⟩
    have hwritten := Key.read_write ⟨field.tag, occurrence.1⟩ occurrence.2 ht
    have hread := Key.read_write ⟨field.tag, type⟩ payload ht
    rw [show Key.write ⟨field.tag, occurrence.1⟩ ++ occurrence.2 = _ from hbytes, hread] at hwritten
    cases hwritten
    rw [merges_cons, if_pos rfl] at hmerges
    exact hmerges
  · rintro ⟨htakes, rfl⟩
    refine ⟨ht, occurrence.1, occurrence.2, rfl, ?_⟩
    rw [merges_cons, if_pos rfl]
    exact ⟨htakes, rfl⟩

theorem takes_other_iff {chunk : Chunk} {old new : α} {olds news : β}
    (hne : chunk.tag ≠ field.tag) :
    (cons field rest).Takes message levels chunk (old, olds) (new, news) ↔
      rest.Takes message levels chunk olds news ∧ new = old := by
  simp only [Takes, merges_cons, if_neg hne]
  constructor
  · rintro ⟨ht, type, payload, hbytes, hmerges, rfl⟩
    exact ⟨⟨ht, type, payload, hbytes, hmerges⟩, rfl⟩
  · rintro ⟨⟨ht, type, payload, hbytes, hmerges⟩, rfl⟩
    exact ⟨ht, type, payload, hbytes, hmerges, rfl⟩

theorem own_swaps {left right : WireType × Bytes} (ht : IsTag field.tag)
    (h : Run.Swaps (field.cell.Takes levels) left right) :
    Run.Swaps ((cons field rest).Takes message levels)
      ⟨field.tag, Key.write ⟨field.tag, left.1⟩ ++ left.2⟩
      ⟨field.tag, Key.write ⟨field.tag, right.1⟩ ++ right.2⟩ := by
  rintro ⟨old, olds⟩ ⟨middle, middles⟩ ⟨new, news⟩ hleft hright
  obtain ⟨hl, rfl⟩ := (takes_own_iff ht).mp hleft
  obtain ⟨hr, rfl⟩ := (takes_own_iff ht).mp hright
  obtain ⟨other, hr', hl'⟩ := h hl hr
  exact ⟨(other, news), (takes_own_iff ht).mpr ⟨hr', rfl⟩, (takes_own_iff ht).mpr ⟨hl', rfl⟩⟩

theorem other_swaps {left right : Chunk} (hl : left.tag ≠ field.tag) (hr : right.tag ≠ field.tag)
    (h : Run.Swaps (rest.Takes message levels) left right) :
    Run.Swaps ((cons field rest).Takes message levels) left right := by
  rintro ⟨old, olds⟩ ⟨middle, middles⟩ ⟨new, news⟩ hfirst hsecond
  obtain ⟨hleft, rfl⟩ := (takes_other_iff hl).mp hfirst
  obtain ⟨hright, rfl⟩ := (takes_other_iff hr).mp hsecond
  obtain ⟨others, hright', hleft'⟩ := h hleft hright
  exact ⟨(_, others), (takes_other_iff hr).mpr ⟨hright', rfl⟩,
    (takes_other_iff hl).mpr ⟨hleft', rfl⟩⟩

end Cons

theorem chunks_commute {fields : Fields β} (h : fields.Commutes levels) (ht : fields.WellTagged)
    (values : β) (hs : ∀ chunk ∈ fields.chunks values, chunk.bytes.length < sizeLimit) :
    (fields.chunks values).Pairwise (Run.Commutes (fields.Takes message levels)) := by
  induction fields with
  | nil => exact .nil
  | cons field rest ih =>
      obtain ⟨hcell, hrest⟩ := h
      obtain ⟨hnodup, htags⟩ := ht
      obtain ⟨hfresh, hdistinct⟩ := List.nodup_cons.mp hnodup
      have htag := htags field.tag List.mem_cons_self
      have hother : ∀ chunk ∈ rest.chunks values.2, chunk.tag ≠ field.tag :=
        fun chunk hc he => hfresh (he ▸ tag_mem_of_mem_chunks hc)
      have hown : ∀ chunk ∈ field.chunks values.1, chunk.tag = field.tag := by
        intro chunk hc
        obtain ⟨occurrence, _, rfl⟩ := List.mem_map.mp hc
        rfl
      have hsizes : ∀ occurrence ∈ field.cell.occurrences values.1,
          occurrence.2.length < sizeLimit := by
        intro occurrence ho
        have hlen := hs _ (List.mem_append_left _ (List.mem_map.mpr ⟨occurrence, ho, rfl⟩))
        rw [List.length_append] at hlen
        omega
      refine List.pairwise_append.mpr ⟨?_, ?_, ?_⟩
      · apply List.pairwise_map.mpr
        exact (hcell values.1 hsizes).imp fun hc => ⟨own_swaps htag hc.1, own_swaps htag hc.2⟩
      · have hpairs := ih hrest ⟨hdistinct, fun tag hm => htags tag (List.mem_cons_of_mem _ hm)⟩
          values.2 fun chunk hc => hs chunk (List.mem_append_right _ hc)
        apply hpairs.imp_of_mem
        intro left right hl hr hc
        exact ⟨other_swaps (hother left hl) (hother right hr) hc.1,
          other_swaps (hother right hr) (hother left hl) hc.2⟩
      · intro left hl right hr
        apply takes_commute
        rw [hown left hl]
        exact (hother right hr).symm

end Fields

-- Putting chunks into the order of their tags leaves none out.
theorem Chunk.insert_perm (chunk : Chunk) (chunks : List Chunk) :
    (chunk.insert chunks).Perm (chunk :: chunks) := by
  induction chunks with
  | nil => exact .refl _
  | cons next rest ih =>
      unfold insert
      split
      · exact .refl _
      · exact (ih.cons next).trans (.swap chunk next rest)

theorem Chunk.sort_perm (chunks : List Chunk) : (sort chunks).Perm chunks := by
  induction chunks with
  | nil => exact .refl _
  | cons chunk chunks ih => exact (insert_perm chunk _).trans (ih.cons chunk)

-- A piece of a body: a field of the record as it was written, or any other field.
inductive Piece
  | known (chunk : Chunk)
  | foreign (field : Foreign)

namespace Piece

def bytes : Piece → Bytes
  | known chunk => chunk.bytes
  | foreign field => field.bytes

def known? : Piece → Option Chunk
  | known chunk => some chunk
  | foreign _ => none

def foreign? : Piece → Option Foreign
  | known _ => none
  | foreign field => some field

end Piece

namespace Message

-- The pieces are the fields of a record in any order, with fields between them that it does not
-- know.
structure Scatters (message : Message α) (value : α) (pieces : List Piece) : Prop where
  known : (pieces.filterMap Piece.known?).Perm (message.chunks value)
  foreign : ∀ field ∈ pieces.filterMap Piece.foreign?, field.key.tag ∉ message.fields.tags

variable {message : Message α} {levels : Nat}

-- A field that the record does not know is skipped or, if something in it lies too deep, refused.
theorem mergeField_foreign_iff {field : Foreign} (h : field.key.tag ∉ message.fields.tags)
    {old new : α} {rest behind : Bytes} :
    message.mergeField levels old (field.bytes ++ rest) = .ok (new, behind) ↔
      field.levels ≤ levels ∧ behind = rest ∧ new = old := by
  have hkey := field.spelling.read (field.payload ++ rest)
  simp only [mergeField, Foreign.bytes, List.append_assoc, hkey, ok_bind, bind_eq_ok, pure_eq_ok,
    Except.ok.injEq, Prod.mk.injEq, Prod.exists, Fields.merge_unknown_iff h,
    field.skip_payload_iff]
  constructor
  · rintro ⟨_, _, ⟨⟨hlevels, hrest⟩, rfl⟩, hnew, rfl⟩
    exact ⟨hlevels, hrest, hnew.symm.trans (message.pack_unpack old)⟩
  · rintro ⟨hlevels, rfl, rfl⟩
    exact ⟨_, _, ⟨⟨hlevels, rfl⟩, rfl⟩, message.pack_unpack new, rfl⟩

theorem consumes_foreign {field : Foreign} (h : field.key.tag ∉ message.fields.tags)
    (hlevels : field.levels ≤ levels) (value : α) :
    Consumes (message.mergeField levels) field.bytes value value :=
  ⟨field.bytes_ne_nil, fun _ => (mergeField_foreign_iff h).mpr ⟨hlevels, rfl, rfl⟩⟩

variable {pieces : List Piece} {old new : message.β}

theorem run_pieces
    (h : Run (message.fields.Takes message.name levels) (pieces.filterMap Piece.known?) old new)
    (hforeign : ∀ field ∈ pieces.filterMap Piece.foreign?, field.key.tag ∉ message.fields.tags)
    (hlevels : ∀ field ∈ pieces.filterMap Piece.foreign?, field.levels ≤ levels) :
    Run (Consumes (message.mergeField levels)) (pieces.map Piece.bytes) (message.pack old)
      (message.pack new) := by
  induction pieces generalizing old with
  | nil =>
      cases h
      exact .nil _
  | cons piece pieces ih =>
      cases piece with
      | known chunk =>
          cases h with
          | cons hchunk hrest => exact .cons (consumes_of_takes hchunk) (ih hrest hforeign hlevels)
      | foreign field =>
          obtain ⟨hfield, hforeign⟩ := List.forall_mem_cons.mp hforeign
          obtain ⟨hlevel, hlevels⟩ := List.forall_mem_cons.mp hlevels
          exact .cons (consumes_foreign hfield hlevel _) (ih h hforeign hlevels)

-- No other run goes along the same bytes.
theorem eq_of_run_pieces {others : List Bytes} {last : α}
    (h : Run (message.fields.Takes message.name levels) (pieces.filterMap Piece.known?) old new)
    (hforeign : ∀ field ∈ pieces.filterMap Piece.foreign?, field.key.tag ∉ message.fields.tags)
    (hrun : Run (Consumes (message.mergeField levels)) others (message.pack old) last)
    (he : others.flatten = pieces.flatMap Piece.bytes) :
    last = message.pack new ∧
      ∀ field ∈ pieces.filterMap Piece.foreign?, field.levels ≤ levels := by
  induction pieces generalizing old others with
  | nil =>
      cases h
      cases hrun with
      | nil => exact ⟨rfl, nofun⟩
      | cons hstep _ => exact absurd (List.append_eq_nil_iff.mp he).1 hstep.1
  | cons piece pieces ih =>
      rw [List.flatMap_cons] at he
      cases piece with
      | known chunk =>
          cases h with
          | cons hchunk hrest =>
              obtain ⟨behind, rfl, hbehind, hrun⟩ :=
                run_behind_step hrun (consumes_of_takes hchunk) he
              exact ih hrest hforeign hrun hbehind
      | foreign field =>
          obtain ⟨hfield, hforeign⟩ := List.forall_mem_cons.mp hforeign
          obtain ⟨_, behind, next, rfl, hread, hrun⟩ :=
            exists_step_of_run hrun he field.bytes_ne_nil
          obtain ⟨hlevel, hbehind, rfl⟩ := (mergeField_foreign_iff hfield).mp hread
          obtain ⟨hlast, hlevels⟩ := ih h hforeign hrun hbehind
          exact ⟨hlast, List.forall_mem_cons.mpr ⟨hlevel, hlevels⟩⟩

-- A body of scattered fields is read as the record exactly if nothing in it lies too deep, and else
-- not at all.
theorem read_scattered_iff {value other : α} (hf : message.fields.TakesFronts)
    (hc : message.fields.Commutes levelLimit) (ht : message.fields.WellTagged)
    (hrun : Run (message.fields.Takes message.name levelLimit)
      (message.fields.chunks (message.unpack value)) message.fields.zero (message.unpack value))
    (hs : (message.write value).length < sizeLimit) (h : message.Scatters value pieces) :
    message.read (pieces.flatMap Piece.bytes) = .ok other ↔
      other = value ∧ ∀ field ∈ pieces.filterMap Piece.foreign?, field.levels ≤ levelLimit := by
  have hperm : (message.fields.chunks (message.unpack value)).Perm
      (pieces.filterMap Piece.known?) :=
    (h.known.trans (Chunk.sort_perm _)).symm
  have hknown := hrun.perm hperm (Fields.chunks_commute hc ht _ (length_chunk_lt hs))
  have hpack := message.pack_unpack value
  rw [read_iff hf]
  constructor
  · rintro ⟨others, hbytes, hothers⟩
    have hlast := eq_of_run_pieces hknown h.foreign hothers hbytes.symm
    rwa [hpack] at hlast
  · rintro ⟨rfl, hlevels⟩
    have hpieces := run_pieces hknown h.foreign hlevels
    rw [hpack] at hpieces
    exact ⟨_, List.flatMap_def .., hpieces⟩

end Message

end TableHistory.Schema
