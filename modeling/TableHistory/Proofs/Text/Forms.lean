import TableHistory.Proofs.Text.Sequence
import TableHistory.Proofs.Text.Takes

namespace TableHistory.Text

variable {α β : Type}

theorem Reads.of_takes {read : Reader α} {tree : Tree} {value : α}
    (h : ∀ depth, Takes read (tree.write depth) value) : Reads read tree value :=
  ⟨fun depth => (h depth).begins, fun depth => (h depth).takes⟩

namespace Form

theorem decode_write {form : Form α} {tree : Tree} {value : α} (h : Reads form.read tree value) :
    form.decode (tree.write 0) = .ok value := by
  have hread := decode_takes (h.takes 0) Blank.nil Blank.nil
  rwa [List.append_nil] at hread

-- The form reads the value that it wrote, and never writes what could be taken for null.
structure Restores (form : Form α) (value : α) : Prop where
  reads : Reads form.read (form.tree value) value
  present : ∀ depth, ascii 'n' ∉ ((form.tree value).write depth).head?

theorem not_null_of_head {bytes rest : Bytes} {byte : UInt8} (hb : bytes = byte :: rest)
    (hne : byte ≠ ascii 'n') : ascii 'n' ∉ bytes.head? := by
  rw [hb, List.head?_cons, Option.mem_some_iff]
  exact hne

theorem text_restores (value : String) : text.Restores value where
  reads := .of_takes fun _ => text_takes (Quoted.spells_behindQuote value)
  present := by
    intro depth
    exact not_null_of_head (Quoted.write_eq value) (by decide)

theorem bool_restores (value : Bool) : bool.Restores value where
  reads := by
    apply Reads.of_takes
    intro depth
    have htakes := bool_takes value
    cases value <;> exact htakes
  present := by
    intro depth
    cases value with
    | false => exact not_null_of_head (show falseWord = ascii 'f' :: _ from rfl) (by decide)
    | true => exact not_null_of_head (show trueWord = ascii 't' :: _ from rfl) (by decide)

theorem ofRange_restores {least most : Int} {ofInt : Int → α} {toInt : α → Int} {value : α}
    (hl : -2 ^ 63 ≤ least) (hu : most < 2 ^ 64)
    (hr : least ≤ toInt value ∧ toInt value ≤ most) (hback : ofInt (toInt value) = value) :
    (ofRange least most ofInt toInt).Restores value where
  reads := .of_takes fun _ => ofRange_takes hl hu hr hback
  present := by
    intro depth
    obtain ⟨byte, more, hw, hs⟩ := Number.write_head (toInt value)
    exact not_null_of_head hw (Number.startsNumber_ne hs).2.2

theorem int64_restores (value : Int64) : int64.Restores value := by
  have hleast := Int64.le_toInt value
  have hmost := Int64.toInt_lt value
  exact ofRange_restores (by decide) (by decide) ⟨hleast, by omega⟩ (Int64.ofInt_toInt value)

theorem int32_restores (value : Int32) : int32.Restores value := by
  have hleast := Int32.le_toInt value
  have hmost := Int32.toInt_lt value
  exact ofRange_restores (by decide) (by decide) ⟨hleast, by omega⟩ (Int32.ofInt_toInt value)

theorem uint32_restores (value : UInt32) : uint32.Restores value := by
  have hmost := UInt32.toNat_lt value
  exact ofRange_restores (by decide) (by decide) ⟨by omega, by omega⟩ UInt32.ofNat_toNat

theorem byte_restores (value : UInt8) : byte.Restores value := by
  have hmost := UInt8.toNat_lt value
  exact ofRange_restores (by decide) (by decide) ⟨by omega, by omega⟩ UInt8.ofNat_toNat

theorem via_restores {form : Form α} {wrap : α → β} {unwrap : β → α} {value : β}
    (hback : wrap (unwrap value) = value) (h : form.Restores (unwrap value)) :
    (form.via wrap unwrap).Restores value where
  reads := by
    apply Reads.of_takes
    intro depth
    have htakes := via_takes wrap unwrap (h.reads.takes depth)
    rwa [hback] at htakes
  present := h.present

-- The first value with a name is the one that is read for it.
theorem ofNames_restores {values : List α} {nameOf : α → String} {value : α}
    (h : values.find? (fun other => nameOf other = nameOf value) = some value) :
    (ofNames values nameOf).Restores value where
  reads := by
    refine ⟨(text_restores (nameOf value)).reads.begins, ?_⟩
    intro depth bytes rest hb _
    have hquote : skipBlank bytes = quote :: (Quoted.behindQuote (nameOf value) ++ rest) := hb
    simp only [ofNames, hquote, if_true, Quoted.readText_write, ok_bind, h, pure_eq_ok]
  present := (text_restores (nameOf value)).present

-- Elements as they are written, each with its value.
def items (form : Form α) (depth : Nat) (values : List α) : List (Bytes × α) :=
  values.map fun value => ((form.tree value).write (depth + 1), value)

theorem items_values (form : Form α) (depth : Nat) (values : List α) :
    (form.items depth values).map Prod.snd = values := by
  rw [items, List.map_map]
  exact List.map_id values

theorem spread_items (form : Form α) (depth : Nat) (values : List α) :
    ∃ body, ((listOf form).tree values).write depth = openList :: body ∧
      Spread .list ((form.items depth values).map Prod.fst) body := by
  have hitems : (form.items depth values).map Prod.fst =
      (values.map form.tree).map (Tree.write (depth + 1)) := by
    rw [items, List.map_map, List.map_map]
    rfl
  rw [hitems]
  exact spread_list depth (values.map form.tree)

theorem listOf_restores {form : Form α} {values : List α}
    (h : ∀ value ∈ values, form.Restores value) : (listOf form).Restores values where
  reads := by
    apply Reads.of_takes
    intro depth
    obtain ⟨body, he, hspread⟩ := form.spread_items depth values
    have hitems : ∀ item ∈ form.items depth values, Takes form.read item.1 item.2 := by
      intro item hi
      obtain ⟨value, hv, rfl⟩ := List.mem_map.mp hi
      exact (h value hv).reads.takes (depth + 1)
    have htakes := listOf_takes hspread hitems
    rwa [items_values, ← he] at htakes
  present := by
    intro depth
    obtain ⟨body, he⟩ := Tree.list_head (values.map form.tree) depth
    exact not_null_of_head he (by decide)

-- The list of a blob's bytes is never taken for a string.
theorem blob_restores (value : Bytes) : blob.Restores value := by
  have hlist : (listOf byte).Restores value := listOf_restores fun next _ => byte_restores next
  refine ⟨⟨hlist.reads.begins, ?_⟩, hlist.present⟩
  intro depth bytes rest hb he
  obtain ⟨body, hbody⟩ := Tree.list_head (value.map byte.tree) depth
  have hopen : skipBlank bytes = openList :: (body ++ rest) := hb.trans (congrArg (· ++ rest) hbody)
  have hquote : openList ≠ quote := by decide
  simp only [blob, hopen, hquote, if_false]
  exact hlist.reads.reads depth bytes rest hb he

-- Entries as they are written, each with its value.
def members (form : Form α) (depth : Nat) (map : OrderedMap String α) : List (Named × α) :=
  map.entries.map fun entry => (Named.written (depth + 1) (entry.1, form.tree entry.2), entry.2)

theorem members_entries (form : Form α) (depth : Nat) (map : OrderedMap String α) :
    (form.members depth map).map (fun member => (member.1.name, member.2)) = map.entries := by
  rw [members, List.map_map]
  exact List.map_id map.entries

theorem spread_members (form : Form α) (depth : Nat) (map : OrderedMap String α) :
    ∃ body, ((mapOf form).tree map).write depth = openObject :: body ∧
      Spread .object (((form.members depth map).map Prod.fst).map Named.bytes) body := by
  have hmembers : (form.members depth map).map Prod.fst =
      (map.entries.map fun entry => (entry.1, form.tree entry.2)).map
        (Named.written (depth + 1)) := by
    rw [members, List.map_map, List.map_map]
    rfl
  rw [hmembers]
  exact spread_object depth (map.entries.map fun entry => (entry.1, form.tree entry.2))

theorem mapOf_restores {form : Form α} {map : OrderedMap String α}
    (h : ∀ entry ∈ map.entries, form.Restores entry.2) : (mapOf form).Restores map where
  reads := by
    apply Reads.of_takes
    intro depth
    obtain ⟨body, he, hspread⟩ := form.spread_members depth map
    rw [he]
    refine mapOf_takes hspread (.of_eq (form.members_entries depth map)) ?_
    intro member hm
    obtain ⟨entry, hentry, rfl⟩ := List.mem_map.mp hm
    exact (h entry hentry).reads.takes (depth + 1)
  present := by
    intro depth
    obtain ⟨body, he⟩ := Tree.object_head
      (map.entries.map fun entry => (entry.1, form.tree entry.2)) depth
    exact not_null_of_head he (by decide)

theorem optional_reads {form : Form α} {value : Option α}
    (h : ∀ present ∈ value, form.Restores present) :
    Reads (optional form).read ((optional form).tree value) value := by
  apply Reads.of_takes
  intro depth
  cases value with
  | none => exact optional_null_takes form
  | some value =>
      have hvalue := h value rfl
      exact optional_takes (hvalue.reads.takes depth) (hvalue.present depth)

theorem nullAs_restores {form : Form α} {value : α} (zero : α) (h : form.Restores value) :
    (nullAs zero form).Restores value where
  reads := by
    apply Reads.of_takes
    intro depth
    exact nullAs_takes zero (optional_takes (h.reads.takes depth) (h.present depth))
  present := h.present

end Form

end TableHistory.Text
