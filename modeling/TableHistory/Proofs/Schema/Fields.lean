import TableHistory.Proofs.Result
import TableHistory.Proofs.Schema.Cells
import TableHistory.Schema.Message

namespace TableHistory.Schema.Fields

open Wire

variable {α β γ : Type} {message : String} {levels : Nat}

-- The value behind a key is merged as a whole, whatever stands behind it.
def Merges (fields : Fields β) (message : String) (levels : Nat) (key : Key) (payload : Bytes)
    (old new : β) : Prop :=
  ∀ rest, fields.merge message levels key old (payload ++ rest) = .ok (new, rest)

-- All that a merge can do: it changes the field of the key's tag, or the fields behind it.
theorem merges_cons {field : Field α} {rest : Fields β} {key : Key} {payload : Bytes}
    {old new : α} {olds news : β} :
    (cons field rest).Merges message levels key payload (old, olds) (new, news) ↔
      if key.tag = field.tag then
        field.cell.Takes levels (key.type, payload) old new ∧ news = olds
      else rest.Merges message levels key payload olds news ∧ new = old := by
  by_cases ht : key.tag = field.tag
  · simp only [ht, if_true, Merges, merge, Cell.Takes]
    constructor
    · intro h
      constructor
      · intro behind
        have hb := h behind
        split at hb
        · rename_i value behind' hm
          simp only [Except.ok.injEq, Prod.mk.injEq] at hb
          obtain ⟨⟨rfl, rfl⟩, rfl⟩ := hb
          exact hm
        · cases hb
      · have hb := h []
        split at hb
        · simp only [Except.ok.injEq, Prod.mk.injEq] at hb
          exact hb.1.2.symm
        · cases hb
    · rintro ⟨h, rfl⟩ behind
      simp only [h behind]
  · simp only [ht, if_false, Merges, merge, bind_eq_ok, pure_eq_ok, Except.ok.injEq,
      Prod.mk.injEq]
    constructor
    · intro h
      constructor
      · intro behind
        obtain ⟨result, hm, ⟨_, rfl⟩, rfl⟩ := h behind
        exact hm
      · obtain ⟨_, _, ⟨rfl, _⟩, _⟩ := h []
        rfl
    · rintro ⟨h, rfl⟩ behind
      exact ⟨(news, behind), h behind, ⟨rfl, rfl⟩, rfl⟩

-- Values of different tags go to different fields, so either may come first.
theorem merges_swap {fields : Fields β} {left right : Key} {first second : Bytes}
    {start middle finish : β} (hne : left.tag ≠ right.tag)
    (hl : fields.Merges message levels left first start middle)
    (hr : fields.Merges message levels right second middle finish) :
    ∃ other, fields.Merges message levels right second start other ∧
      fields.Merges message levels left first other finish := by
  induction fields with
  | nil => exact ⟨(), hr, hl⟩
  | cons field rest ih =>
      obtain ⟨a, as⟩ := start
      obtain ⟨b, bs⟩ := middle
      obtain ⟨c, cs⟩ := finish
      rw [merges_cons] at hl hr
      by_cases htl : left.tag = field.tag
      · have htr : ¬ right.tag = field.tag := fun h => hne (htl.trans h.symm)
        simp only [htl, htr, if_true, if_false] at hl hr
        obtain ⟨hl, rfl⟩ := hl
        obtain ⟨hr, rfl⟩ := hr
        refine ⟨(a, cs), merges_cons.mpr ?_, merges_cons.mpr ?_⟩
        · simpa only [htr, if_false, and_true] using hr
        · simpa only [htl, if_true, and_true] using hl
      · by_cases htr : right.tag = field.tag
        · simp only [htl, htr, if_true, if_false] at hl hr
          obtain ⟨hl, rfl⟩ := hl
          obtain ⟨hr, rfl⟩ := hr
          refine ⟨(c, as), merges_cons.mpr ?_, merges_cons.mpr ?_⟩
          · simpa only [htr, if_true, and_true] using hr
          · simpa only [htl, if_false, and_true] using hl
        · simp only [htl, htr, if_false] at hl hr
          obtain ⟨hl, rfl⟩ := hl
          obtain ⟨hr, rfl⟩ := hr
          obtain ⟨other, hr', hl'⟩ := ih hl hr
          refine ⟨(c, other), merges_cons.mpr ?_, merges_cons.mpr ?_⟩
          · simpa only [htr, if_false, and_true] using hr'
          · simpa only [htl, if_false, and_true] using hl'

-- A chunk is a key and the value behind it.
def Takes (fields : Fields β) (message : String) (levels : Nat) (chunk : Chunk)
    (old new : β) : Prop :=
  IsTag chunk.tag ∧ ∃ type payload, chunk.bytes = Key.write ⟨chunk.tag, type⟩ ++ payload ∧
    fields.Merges message levels ⟨chunk.tag, type⟩ payload old new

-- Chunks of different tags may be read in either order.
theorem takes_swaps {fields : Fields β} {left right : Chunk} (hne : left.tag ≠ right.tag) :
    Run.Swaps (fields.Takes message levels) left right := by
  rintro first middle last ⟨htl, typel, payloadl, hbl, hml⟩ ⟨htr, typer, payloadr, hbr, hmr⟩
  obtain ⟨other, hr, hl⟩ := merges_swap hne hml hmr
  exact ⟨other, ⟨htr, typer, payloadr, hbr, hr⟩, ⟨htl, typel, payloadl, hbl, hl⟩⟩

theorem run_swap {fields : Fields β} {left right : Chunk} {chunks : List Chunk} {first last : β}
    (hne : left.tag ≠ right.tag)
    (h : Run (fields.Takes message levels) (left :: right :: chunks) first last) :
    Run (fields.Takes message levels) (right :: left :: chunks) first last := by
  cases h with
  | cons hl h =>
      cases h with
      | cons hr hrest =>
          obtain ⟨other, hr', hl'⟩ := takes_swaps hne hl hr
          exact .cons hr' (.cons hl' hrest)

theorem run_insert {fields : Fields β} {chunk : Chunk} {chunks : List Chunk} {first last : β}
    (h : Run (fields.Takes message levels) (chunk :: chunks) first last) :
    Run (fields.Takes message levels) (chunk.insert chunks) first last := by
  induction chunks generalizing first with
  | nil => exact h
  | cons next rest ih =>
      unfold Chunk.insert
      by_cases ht : chunk.tag ≤ next.tag
      · rw [if_pos ht]
        exact h
      · rw [if_neg ht]
        have hne : chunk.tag ≠ next.tag := by omega
        cases run_swap hne h with
        | cons hnext hrest => exact .cons hnext (ih hrest)

-- Bringing chunks into the order of their tags does not change what they are read as.
theorem run_sort {fields : Fields β} {chunks : List Chunk} {first last : β}
    (h : Run (fields.Takes message levels) chunks first last) :
    Run (fields.Takes message levels) (Chunk.sort chunks) first last := by
  induction h with
  | nil => exact .nil _
  | cons hstep _ ih => exact run_insert (.cons hstep ih)

-- Fields whose cells all give back what they wrote.
inductive Restores (levels : Nat) : {β : Type} → Fields β → (β → β) → Prop
  | nil : Restores levels .nil id
  | cons {α β : Type} {field : Field α} {rest : Fields β} {back : α → α} {backs : β → β}
      (hcell : field.cell.Restores levels back) (hrest : Restores levels rest backs) :
      Restores levels (.cons field rest) (Prod.map back backs)

-- Every field has a tag of its own.
def WellTagged (fields : Fields β) : Prop := fields.tags.Nodup ∧ ∀ tag ∈ fields.tags, IsTag tag

instance (fields : Fields β) : Decidable fields.WellTagged :=
  inferInstanceAs (Decidable (_ ∧ _))

theorem tag_mem_of_mem_chunks {fields : Fields β} {values : β} {chunk : Chunk}
    (h : chunk ∈ fields.chunks values) : chunk.tag ∈ fields.tags := by
  induction fields with
  | nil => simp [chunks] at h
  | cons field rest ih =>
      rcases List.mem_append.mp h with h | h
      · obtain ⟨occurrence, _, rfl⟩ := List.mem_map.mp h
        exact List.mem_cons_self
      · exact List.mem_cons_of_mem _ (ih h)

theorem chunks_of_isZero {fields : Fields β} {values : β} (h : fields.isZero values = true) :
    fields.chunks values = [] := by
  induction fields with
  | nil => rfl
  | cons field rest ih =>
      obtain ⟨hvalue, hvalues⟩ := Bool.and_eq_true_iff.mp h
      simp only [chunks, Field.chunks, Cell.occurrences_of_isZero hvalue, ih hvalues,
        List.map_nil, List.nil_append]

-- The chunks of a field change the first value only.
theorem field_run {field : Field α} {rest : Fields β} {back : α → α}
    (hcell : field.cell.Restores levels back) (ht : IsTag field.tag) (value : α) (others : β)
    (hs : ∀ chunk ∈ field.chunks value, chunk.bytes.length < sizeLimit) :
    Run ((cons field rest).Takes message levels) (field.chunks value)
      (field.cell.zero, others) (back value, others) := by
  have hsizes : ∀ occurrence ∈ field.cell.occurrences value, occurrence.2.length < sizeLimit := by
    intro occurrence ho
    have hlen := hs _ (List.mem_map.mpr ⟨occurrence, ho, rfl⟩)
    simp only [List.length_append] at hlen
    omega
  apply (hcell value hsizes).map _ fun state => (state, others)
  intro occurrence _ old new htake
  refine ⟨ht, occurrence.1, occurrence.2, rfl, ?_⟩
  rw [merges_cons, if_pos rfl]
  exact ⟨htake, rfl⟩

-- The record that is read and the one that was written may differ behind a field they share.
theorem run_cons {field : Field α} {read : Fields β} {written : Fields γ} {back : α → α}
    {value : α} {values : γ} {last : β} (hcell : field.cell.Restores levels back)
    (ht : IsTag field.tag) (hfresh : field.tag ∉ written.tags)
    (hs : ∀ chunk ∈ field.chunks value, chunk.bytes.length < sizeLimit)
    (h : Run (read.Takes message levels) (written.chunks values) read.zero last) :
    Run ((cons field read).Takes message levels) ((cons field written).chunks (value, values))
      (cons field read).zero (back value, last) := by
  have hfirst : Run ((cons field read).Takes message levels) (field.chunks value)
      (field.cell.zero, read.zero) (back value, read.zero) :=
    field_run hcell ht value read.zero hs
  have hlift : Run ((cons field read).Takes message levels) (written.chunks values)
      (back value, read.zero) (back value, last) := by
    apply h.mapState fun state => (back value, state)
    rintro chunk hc old new ⟨htag, type, payload, hbytes, hmerge⟩
    have hne : chunk.tag ≠ field.tag := fun he => hfresh (he ▸ tag_mem_of_mem_chunks hc)
    refine ⟨htag, type, payload, hbytes, ?_⟩
    rw [merges_cons, if_neg hne]
    exact ⟨hmerge, rfl⟩
  exact hfirst.append hlift

theorem run_chunks {fields : Fields β} {backs : β → β} (h : fields.Restores levels backs)
    (ht : fields.WellTagged) (values : β)
    (hs : ∀ chunk ∈ fields.chunks values, chunk.bytes.length < sizeLimit) :
    Run (fields.Takes message levels) (fields.chunks values) fields.zero (backs values) := by
  induction h with
  | nil => exact .nil _
  | cons hcell _ ih =>
      obtain ⟨hnodup, htags⟩ := ht
      obtain ⟨hfresh, hdistinct⟩ := List.nodup_cons.mp hnodup
      have hrest := ih ⟨hdistinct, fun tag hm => htags tag (List.mem_cons_of_mem _ hm)⟩ values.2
        fun chunk hc => hs chunk (List.mem_append_right _ hc)
      apply run_cons hcell (htags _ List.mem_cons_self) hfresh _ hrest
      intro chunk hc
      exact hs chunk (List.mem_append_left _ hc)

end TableHistory.Schema.Fields
