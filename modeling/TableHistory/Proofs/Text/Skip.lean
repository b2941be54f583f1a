import TableHistory.Proofs.Text.Forms

namespace TableHistory.Text

-- Skipping the bytes costs at most their length and leads behind them, whatever brackets are open
-- around them. What stands behind them may have to fit.
structure Skippable (fits : Bytes → Prop) (bytes : Bytes) : Prop where
  begins : Begins bytes
  skips : ∃ cost ≤ bytes.length, ∀ count around text rest,
    skipBlank text = bytes ++ rest → fits rest →
      skipValueIn (count + cost) around text = skipRestOf count around rest

-- The same of a written tree, whatever stands behind it.
structure Tree.Skips (tree : Tree) : Prop where
  begins : tree.Begins
  skips : ∀ depth, ∃ cost ≤ (tree.write depth).length, ∀ count around bytes rest,
    skipBlank bytes = tree.write depth ++ rest →
      skipValueIn (count + cost) around bytes = skipRestOf count around rest

-- Up to the value of a member, its name is skipped.
theorem Spaced.skipName (member : Spaced) (hraw : Quoted.Raw member.spelling) {blanks : Bytes}
    (hb : Blank blanks) (rest : Bytes) :
    skipName (blanks ++ (member.bytes ++ rest)) =
      .ok (member.margin ++ (member.value ++ rest)) := by
  have hquote := member.skipBlank_bytes hb rest
  simp only [Text.skipName, hquote, if_true, hraw.skip, ok_bind, readColon_behind member.gap_blank]

section Brackets

variable {bytes behind rest : Bytes} {bracket : Bracket}

theorem skipRestOf_closing (count : Nat) (bracket : Bracket) (around : List Bracket)
    (h : skipBlank bytes = bracket.closing :: rest) :
    skipRestOf (count + 1) (bracket :: around) bytes = skipRestOf count around rest := by
  have hcomma := (comma_ne_closing bracket).symm
  simp only [skipRestOf, h, hcomma, if_false, if_true]

theorem skipRestOf_element (count : Nat) (around : List Bracket)
    (h : skipBlank bytes = comma :: rest) :
    skipRestOf (count + 1) (.list :: around) bytes = skipValueIn count (.list :: around) rest := by
  simp only [skipRestOf, h, if_true]

theorem skipRestOf_member (count : Nat) (around : List Bracket)
    (h : skipBlank bytes = comma :: behind) (hname : skipName behind = .ok rest) :
    skipRestOf (count + 1) (.object :: around) bytes =
      skipValueIn count (.object :: around) rest := by
  simp only [skipRestOf, h, if_true, hname, ok_bind]

theorem openObject_ne_openList : openObject ≠ openList := by decide

theorem skipValueIn_list (count : Nat) (around : List Bracket) {next : UInt8}
    (hb : skipBlank bytes = openList :: rest) (hn : skipBlank rest = next :: behind) :
    skipValueIn (count + 1) around bytes =
      if next = closeList then skipRestOf count around behind
      else skipValueIn count (.list :: around) rest := by
  simp only [skipValueIn, hb, hn, if_true]

theorem skipValueIn_object (count : Nat) (around : List Bracket) {name : Bytes}
    (hb : skipBlank bytes = openObject :: behind) (hq : skipBlank behind = quote :: name)
    (hname : skipName behind = .ok rest) :
    skipValueIn (count + 1) around bytes = skipValueIn count (.object :: around) rest := by
  simp only [skipValueIn, hb, hq, hname, ok_bind, openObject_ne_openList, quote_ne_closeObject,
    if_false, if_true]

end Brackets

section Spread

variable {bytes : Bytes} {fits : Bytes → Prop}

-- What follows the first element of a list, up to its end.
theorem skipRestOf_elements {items : List Bytes} (hs : Behind .list items bytes)
    (h : ∀ item ∈ items, Skippable Number.Ended item) :
    ∃ cost ≤ bytes.length, ∀ count around rest,
      skipRestOf (count + cost) (.list :: around) (bytes ++ rest) =
        skipRestOf count around rest := by
  induction hs with
  | @close blanks hb =>
      refine ⟨1, by simp, ?_⟩
      intro count around rest
      exact skipRestOf_closing count .list around (hb.skipBlank_close .list rest)
  | @next before after item behind items hb ha hbehind ih =>
      obtain ⟨hbegins, cost, hcost, hskip⟩ := h item List.mem_cons_self
      obtain ⟨more, hmore, hskips⟩ := ih fun other ho => h other (List.mem_cons_of_mem _ ho)
      refine ⟨more + cost + 1, ?_, ?_⟩
      · simp only [List.length_append, List.length_cons]
        omega
      · intro count around rest
        have hcount : count + (more + cost + 1) = count + more + cost + 1 := by omega
        have hitem : skipBlank (after ++ (item ++ (behind ++ rest))) =
            item ++ (behind ++ rest) := by
          rw [ha.skipBlank, hbegins.skipBlank]
        rw [hcount, skipRestOf_element _ _ (hb.skipBlank_next after item behind rest),
          hskip _ _ _ _ hitem (hbehind.ended rest), hskips]

-- A list is skipped if its elements are.
theorem skippable_list {items : List Bytes} (hs : Spread .list items bytes)
    (h : ∀ item ∈ items, Skippable Number.Ended item) : Skippable fits (openList :: bytes) := by
  refine ⟨⟨openList, bytes, rfl, by decide⟩, ?_⟩
  cases hs with
  | @empty blanks hb =>
      refine ⟨1, by simp, ?_⟩
      intro count around text rest ht _
      have hclose := hb.skipBlank_close .list rest
      rw [skipValueIn_list count around ht hclose]
      exact if_pos rfl
  | @first blanks item behind items hb hbehind =>
      obtain ⟨⟨byte, body, hbyte, hnoblank, hclose⟩, cost, hcost, hskip⟩ :=
        h item List.mem_cons_self
      obtain ⟨more, hmore, hskips⟩ := skipRestOf_elements hbehind
        fun other ho => h other (List.mem_cons_of_mem _ ho)
      refine ⟨more + cost + 1, ?_, ?_⟩
      · simp only [List.length_cons, List.length_append]
        omega
      · intro count around text rest ht _
        have hcount : count + (more + cost + 1) = count + more + cost + 1 := by omega
        have hitem : skipBlank (blanks ++ (item ++ behind) ++ rest) = item ++ (behind ++ rest) := by
          rw [List.append_assoc, hb.skipBlank, List.append_assoc, hbyte, List.cons_append,
            skipBlank_cons hnoblank]
        have hfirst : skipBlank (blanks ++ (item ++ behind) ++ rest) =
            byte :: (body ++ (behind ++ rest)) := by rw [hitem, hbyte, List.cons_append]
        rw [List.cons_append] at ht
        rw [hcount, skipValueIn_list _ around ht hfirst, if_neg hclose,
          hskip _ _ _ _ hitem (hbehind.ended rest), hskips]

-- What follows the first member of an object, up to its end.
theorem skipRestOf_members {members : List Spaced}
    (hs : Behind .object (members.map Spaced.bytes) bytes)
    (h : ∀ member ∈ members,
      Quoted.Raw member.spelling ∧ Skippable Number.Ended member.value) :
    ∃ cost ≤ bytes.length, ∀ count around rest,
      skipRestOf (count + cost) (.object :: around) (bytes ++ rest) =
        skipRestOf count around rest := by
  induction members generalizing bytes with
  | nil =>
      cases hs with
      | close hb =>
          refine ⟨1, by simp, ?_⟩
          intro count around rest
          exact skipRestOf_closing count .object around (hb.skipBlank_close .object rest)
  | cons member members ih =>
      cases hs with
      | @next before after _ behind _ hb ha hbehind =>
          obtain ⟨hraw, hbegins, cost, hcost, hskip⟩ := h member List.mem_cons_self
          obtain ⟨more, hmore, hskips⟩ :=
            ih hbehind fun other ho => h other (List.mem_cons_of_mem _ ho)
          refine ⟨more + cost + 1, ?_, ?_⟩
          · have hlength := member.length_value_lt
            simp only [List.length_append, List.length_cons]
            omega
          · intro count around rest
            have hcount : count + (more + cost + 1) = count + more + cost + 1 := by omega
            have hname := member.skipName hraw ha (behind ++ rest)
            have hvalue := member.skipBlank_value hbegins (behind ++ rest)
            rw [hcount, skipRestOf_member _ _ (hb.skipBlank_next after member.bytes behind rest)
              hname, hskip _ _ _ _ hvalue (hbehind.ended rest), hskips]

-- An object is skipped if the values of its members are.
theorem skippable_object {members : List Spaced}
    (hs : Spread .object (members.map Spaced.bytes) bytes)
    (h : ∀ member ∈ members,
      Quoted.Raw member.spelling ∧ Skippable Number.Ended member.value) :
    Skippable fits (openObject :: bytes) := by
  refine ⟨⟨openObject, bytes, rfl, by decide⟩, ?_⟩
  cases members with
  | nil =>
      cases hs with
      | @empty blanks hb =>
          refine ⟨1, by simp, ?_⟩
          intro count around text rest ht _
          have hopen : skipBlank text = openObject :: (blanks ++ [closeObject] ++ rest) := ht
          have hclose : skipBlank (blanks ++ [closeObject] ++ rest) = closeObject :: rest :=
            hb.skipBlank_close .object rest
          simp only [skipValueIn, hopen, hclose, openObject_ne_openList, if_false, if_true]
  | cons member members =>
      cases hs with
      | @first blanks _ behind _ hb hbehind =>
          obtain ⟨hraw, hbegins, cost, hcost, hskip⟩ := h member List.mem_cons_self
          obtain ⟨more, hmore, hskips⟩ := skipRestOf_members hbehind
            fun other ho => h other (List.mem_cons_of_mem _ ho)
          refine ⟨more + cost + 1, ?_, ?_⟩
          · have hlength := member.length_value_lt
            simp only [List.length_append, List.length_cons]
            omega
          · intro count around text rest ht _
            have hcount : count + (more + cost + 1) = count + more + cost + 1 := by omega
            have hquote := member.skipBlank_bytes hb (behind ++ rest)
            have hname := member.skipName hraw hb (behind ++ rest)
            have hvalue := member.skipBlank_value hbegins (behind ++ rest)
            rw [List.cons_append, List.append_assoc, List.append_assoc] at ht
            rw [hcount, skipValueIn_object _ around ht hquote hname,
              hskip _ _ _ _ hvalue (hbehind.ended rest), hskips]

end Spread

theorem skippable_scalar {fits : Bytes → Prop} {byte : UInt8} {bytes : Bytes}
    (hb : isBlank byte = false ∧ byte ≠ closeList) (hopen : byte ≠ openList ∧ byte ≠ openObject)
    (h : ∀ rest, fits rest → skipScalar (byte :: (bytes ++ rest)) = .ok rest) :
    Skippable fits (byte :: bytes) := by
  refine ⟨⟨byte, bytes, rfl, hb⟩, 1, by simp, ?_⟩
  intro count around text rest ht hr
  rw [List.cons_append] at ht
  simp only [skipValueIn, ht, h rest hr, ok_bind, hopen.1, hopen.2, if_false]

theorem skippable_text {fits : Bytes → Prop} {spelling : Bytes} (hraw : Quoted.Raw spelling) :
    Skippable fits (quote :: spelling) :=
  skippable_scalar (by decide) (by decide) fun rest _ => hraw.skip rest

-- Nothing is left of a skipped value.
theorem Skippable.skipValue {fits : Bytes → Prop} {bytes text rest : Bytes}
    (h : Skippable fits bytes) (ht : skipBlank text = bytes ++ rest) (hr : fits rest) :
    skipValue text = .ok rest := by
  obtain ⟨_, cost, hcost, hskip⟩ := h
  have hle : (skipBlank text).length ≤ text.length := (List.dropWhile_suffix _).length_le
  rw [ht, List.length_append] at hle
  have hcount : text.length + 1 = text.length + 1 - cost + cost := by omega
  unfold Text.skipValue
  rw [hcount, hskip _ _ _ _ ht hr, skipRestOf]

namespace Tree

theorem Skips.skippable {tree : Tree} (h : tree.Skips) (depth : Nat) (fits : Bytes → Prop) :
    Skippable fits (tree.write depth) := by
  obtain ⟨cost, hcost, hskip⟩ := h.skips depth
  refine ⟨h.begins depth, cost, hcost, ?_⟩
  intro count around text rest ht _
  exact hskip count around text rest ht

theorem skips_of_skippable {tree : Tree}
    (h : ∀ depth, Skippable (fun _ => True) (tree.write depth)) : tree.Skips := by
  refine ⟨fun depth => (h depth).begins, ?_⟩
  intro depth
  obtain ⟨cost, hcost, hskip⟩ := (h depth).skips
  exact ⟨cost, hcost, fun count around bytes rest hb => hskip count around bytes rest hb trivial⟩

theorem skips_text (value : String) : (text value).Skips := by
  apply skips_of_skippable
  intro depth
  exact skippable_text (Quoted.spells_behindQuote value).raw

theorem skips_list {trees : List Tree} (h : ∀ tree ∈ trees, tree.Skips) : (list trees).Skips := by
  apply skips_of_skippable
  intro depth
  obtain ⟨body, he, hspread⟩ := spread_list depth trees
  rw [he]
  apply skippable_list hspread
  intro item hi
  obtain ⟨tree, ht, rfl⟩ := List.mem_map.mp hi
  exact (h tree ht).skippable (depth + 1) _

theorem skips_object {entries : List (String × Tree)} (h : ∀ entry ∈ entries, entry.2.Skips) :
    (object entries).Skips := by
  apply skips_of_skippable
  intro depth
  obtain ⟨body, he, hspread⟩ := spread_object depth entries
  rw [he]
  apply skippable_object hspread.spaced
  intro member hm
  obtain ⟨entry, hentry, rfl⟩ := List.mem_map.mp (List.map_map ▸ hm)
  exact ⟨(Quoted.spells_behindQuote entry.1).raw, (h entry hentry).skippable (depth + 1) _⟩

end Tree

end TableHistory.Text
