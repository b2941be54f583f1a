import TableHistory.Proofs.Text.Skip

namespace TableHistory.Text

variable {α σ : Type}

-- The bytes are over: they end inside a value, or with it.
def Exhausted (result : Except Fault (α × Bytes)) : Prop :=
  result = .error .ended ∨ ∃ value, result = .ok (value, [])

-- Wherever the bytes are cut off, the reader has no bytes left behind them.
def RunsOut (read : Reader α) (bytes : Bytes) : Prop :=
  ∀ ⦃cut more⦄, bytes = cut ++ more → more ≠ [] → ∀ text, skipBlank text = cut →
    Exhausted (read text)

-- Wherever the bytes are cut off, the reader fails for want of bytes.
def Unfinished (read : Reader α) (bytes : Bytes) : Prop :=
  ∀ ⦃cut more⦄, bytes = cut ++ more → more ≠ [] → ∀ text, skipBlank text = cut →
    read text = .error .ended

theorem Unfinished.runsOut {read : Reader α} {bytes : Bytes} (h : Unfinished read bytes) :
    RunsOut read bytes :=
  fun _ _ he hmore text ht => .inl (h he hmore text ht)

theorem Exhausted.map {β : Type} {result : Except Fault (α × Bytes)} (h : Exhausted result)
    (change : α → β) :
    Exhausted (result.map fun result => (change result.1, result.2)) := by
  rcases h with h | ⟨value, h⟩
  · exact .inl (by rw [h]; rfl)
  · exact .inr ⟨change value, by rw [h]; rfl⟩

-- What is left of bytes that begin like a value begins like one, unless nothing is left.
theorem Begins.skipBlank_piece {item piece lost : Bytes} (h : Begins item)
    (he : item = piece ++ lost)
    {blanks : Bytes} (hb : Blank blanks) : Text.skipBlank (blanks ++ piece) = piece := by
  rw [hb.skipBlank]
  cases piece with
  | nil => rfl
  | cons byte piece =>
      obtain ⟨first, rest, rfl, hblank, _⟩ := h
      obtain ⟨rfl, _⟩ := List.cons_eq_cons.mp he
      exact skipBlank_cons hblank piece

theorem Begins.left {item piece lost : Bytes} {byte : UInt8} (h : Begins item)
    (he : item = byte :: piece ++ lost) : Begins (byte :: piece) := by
  obtain ⟨first, rest, rfl, hblank, hclose⟩ := h
  obtain ⟨rfl, _⟩ := List.cons_eq_cons.mp he
  exact ⟨first, piece, rfl, hblank, hclose⟩

-- What is left of the bytes behind an item when they are cut off: blanks, a part of the next item
-- behind its comma, or the whole next item with what is left behind that.
inductive Torn : List Bytes → Bytes → Prop
  | blank {items : List Bytes} {bytes : Bytes} (hb : Blank bytes) : Torn items bytes
  | within {before after item piece lost : Bytes} {items : List Bytes} (hb : Blank before)
      (ha : Blank after) (he : item = piece ++ lost) (hlost : lost ≠ []) :
      Torn (item :: items) (before ++ comma :: (after ++ piece))
  | next {before after item rest : Bytes} {items : List Bytes} (hb : Blank before)
      (ha : Blank after) (hrest : Torn items rest) :
      Torn (item :: items) (before ++ comma :: (after ++ (item ++ rest)))

-- What is left of the bytes behind the opening bracket likewise.
inductive TornOpen : List Bytes → Bytes → Prop
  | blank {items : List Bytes} {bytes : Bytes} (hb : Blank bytes) : TornOpen items bytes
  | within {blanks item piece lost : Bytes} {items : List Bytes} (hb : Blank blanks)
      (he : item = piece ++ lost) (hlost : lost ≠ []) : TornOpen (item :: items) (blanks ++ piece)
  | behind {blanks item rest : Bytes} {items : List Bytes} (hb : Blank blanks)
      (hrest : Torn items rest) : TornOpen (item :: items) (blanks ++ (item ++ rest))

theorem blank_of_cut {blanks cut more : Bytes} {byte : UInt8} (hb : Blank blanks)
    (he : blanks ++ [byte] = cut ++ more) (hmore : more ≠ []) : Blank cut := by
  rcases cut_append he with ⟨left, _, rfl⟩ | ⟨left, rfl, hrest⟩
  · exact hb.left
  · rcases cut_cons hrest with rfl | ⟨rest, rfl, hnil⟩
    · rwa [List.append_nil]
    · exact absurd (List.append_eq_nil_iff.mp hnil.symm).2 hmore

section Cut

variable {bracket : Bracket} {items : List Bytes} {bytes cut more : Bytes}

theorem Behind.torn (hs : Behind bracket items bytes) (hitems : ∀ item ∈ items, item ≠ [])
    (he : bytes = cut ++ more) (hmore : more ≠ []) : Torn items cut := by
  induction hs generalizing cut with
  | close hb => exact .blank (blank_of_cut hb he hmore)
  | @next before after item rest items hb ha _ ih =>
      rcases cut_append he with ⟨left, _, rfl⟩ | ⟨left, rfl, hcomma⟩
      · exact .blank hb.left
      · rcases cut_cons hcomma with rfl | ⟨left, rfl, hafter⟩
        · rw [List.append_nil]
          exact .blank hb
        · rcases cut_append hafter with ⟨blanks, _, rfl⟩ | ⟨left, rfl, hitem⟩
          · have hnothing : Torn (item :: items) (before ++ comma :: (left ++ [])) :=
              .within hb ha.left rfl (hitems item List.mem_cons_self)
            rwa [List.append_nil] at hnothing
          · rcases cut_append hitem with ⟨lost, hlost, hpiece⟩ | ⟨left, rfl, hrest⟩
            · exact .within hb ha hpiece hlost
            · have hothers : ∀ other ∈ items, other ≠ [] :=
                fun other ho => hitems other (List.mem_cons_of_mem _ ho)
              exact .next hb ha (ih hothers hrest)

theorem Spread.torn (hs : Spread bracket items bytes) (hitems : ∀ item ∈ items, item ≠ [])
    (he : bytes = cut ++ more) (hmore : more ≠ []) : TornOpen items cut := by
  cases hs with
  | empty hb => exact .blank (blank_of_cut hb he hmore)
  | first hb hbehind =>
      rcases cut_append he with ⟨left, _, rfl⟩ | ⟨left, rfl, hitem⟩
      · exact .blank hb.left
      · rcases cut_append hitem with ⟨lost, hlost, hpiece⟩ | ⟨left, rfl, hrest⟩
        · exact .within hb hpiece hlost
        · refine .behind hb (hbehind.torn ?_ hrest hmore)
          exact fun other ho => hitems other (List.mem_cons_of_mem _ ho)

theorem Spread.torn_named {members : List Named}
    (hs : Spread bracket (members.map Named.bytes) bytes)
    (he : bytes = cut ++ more) (hmore : more ≠ []) : TornOpen (members.map Named.bytes) cut := by
  refine hs.torn ?_ he hmore
  intro item hi
  obtain ⟨member, _, rfl⟩ := List.mem_map.mp hi
  exact List.cons_ne_nil _ _

theorem Torn.ended (h : Torn items bytes) : Number.Ended bytes := by
  cases h with
  | blank hb =>
      have hended := hb.ended Number.ended_nil
      rwa [List.append_nil] at hended
  | within hb => exact hb.ended (ended_comma _)
  | next hb => exact hb.ended (ended_comma _)

end Cut

theorem nextElement_blank {bytes : Bytes} (h : Blank bytes) (first : Bool) :
    nextElement first bytes = .error .ended := by
  simp only [nextElement, h.skipBlank_self]

theorem nextName_blank {bytes : Bytes} (h : Blank bytes) (first : Bool) :
    nextName first bytes = .error .ended := by
  simp only [nextName, h.skipBlank_self]

section Elements

variable {element : σ → Reader σ} {items : List Bytes} {bytes : Bytes} {old new : σ}

-- Where the next element would begin, there is a part of it or nothing.
theorem nextElement_within {before after item piece lost : Bytes} (hb : Blank before)
    (ha : Blank after) (hbegins : Begins item) (he : item = piece ++ lost) :
    nextElement false (before ++ comma :: (after ++ piece)) = .error .ended ∨
      nextElement false (before ++ comma :: (after ++ piece)) = .ok (some piece) := by
  have hcomma := hb.skipBlank_comma (after ++ piece)
  have hpiece := hbegins.skipBlank_piece he ha
  cases piece with
  | nil =>
      have hne : comma ≠ closeList := comma_ne_closing .list
      left
      simp only [nextElement, hcomma, hpiece, hne, if_false, if_true, Bool.false_eq_true]
  | cons byte piece =>
      have hwhole := hpiece.trans (List.append_nil _).symm
      have hnext := nextElement_next (hbegins.left he) hcomma hwhole
      right
      rwa [List.append_nil] at hnext

theorem nextElement_within_first {blanks item piece lost : Bytes} (hb : Blank blanks)
    (hbegins : Begins item) (he : item = piece ++ lost) :
    nextElement true (blanks ++ piece) = .error .ended ∨
      nextElement true (blanks ++ piece) = .ok (some piece) := by
  have hpiece := hbegins.skipBlank_piece he hb
  cases piece with
  | nil =>
      left
      simp only [nextElement, hpiece]
  | cons byte piece =>
      have hnext := nextElement_first (hbegins.left he) (hpiece.trans (List.append_nil _).symm)
      right
      rwa [List.append_nil] at hnext

-- What an element does to the state, unless the bytes run out inside it.
def ItemCut (element : σ → Reader σ) (item : Bytes) (old new : σ) : Prop :=
  ItemStep element item old new ∧ RunsOut (element old) item

theorem ItemCut.exhausted {item piece lost : Bytes} (h : ItemCut element item old new)
    (he : item = piece ++ lost) (hlost : lost ≠ []) : Exhausted (element old piece) :=
  h.2 he hlost piece (h.1.begins.skipBlank_piece he Blank.nil)

-- Behind the last bytes there is no further element.
theorem Exhausted.readElementsFrom {result : Except Fault (σ × Bytes)} (h : Exhausted result)
    (element : σ → Reader σ) (count : Nat) :
    (do let (state, rest) ← result; readElementsFrom element count false state rest) =
      .error .ended := by
  rcases h with rfl | ⟨state, rfl⟩
  · rfl
  · cases count <;> rfl

theorem readElementsFrom_torn (h : Torn items bytes) (hrun : Run (ItemCut element) items old new)
    (count : Nat) : readElementsFrom element count false old bytes = .error .ended := by
  induction h generalizing old count with
  | blank hb =>
      cases count with
      | zero => rfl
      | succ count => simp only [readElementsFrom, nextElement_blank hb, error_bind]
  | within hb ha he hlost =>
      cases count with
      | zero => rfl
      | succ count =>
          cases hrun with
          | cons hstep _ =>
              have hends := (hstep.exhausted he hlost).readElementsFrom element count
              rcases nextElement_within hb ha hstep.1.begins he with hnext | hnext
              · simp only [readElementsFrom, hnext, error_bind]
              · simp only [readElementsFrom, hnext, ok_bind, hends]
  | @next before after item rest items hb ha htorn ih =>
      cases count with
      | zero => rfl
      | succ count =>
          cases hrun with
          | cons hstep hrest =>
              have hcomma := hb.skipBlank_comma (after ++ (item ++ rest))
              have hitem : skipBlank (after ++ (item ++ rest)) = item ++ rest := by
                rw [ha.skipBlank, hstep.1.begins.skipBlank]
              have hread := hstep.1.front htorn.ended
              simp only [readElementsFrom, nextElement_next hstep.1.begins hcomma hitem, ok_bind,
                hread, ih hrest]

-- A list that is cut off is never read, however many of its elements are left.
theorem readElements_torn (h : TornOpen items bytes) (hrun : Run (ItemCut element) items old new) :
    readElements element old bytes = .error .ended := by
  cases h with
  | blank hb => simp only [readElements, readElementsFrom, nextElement_blank hb, error_bind]
  | within hb he hlost =>
      cases hrun with
      | cons hstep _ =>
          have hends := (hstep.exhausted he hlost).readElementsFrom element
          rcases nextElement_within_first hb hstep.1.begins he with hnext | hnext
          · simp only [readElements, readElementsFrom, hnext, error_bind]
          · simp only [readElements, readElementsFrom, hnext, ok_bind, hends]
  | @behind blanks item rest items hb htorn =>
      cases hrun with
      | cons hstep hrest =>
          have hitem : skipBlank (blanks ++ (item ++ rest)) = item ++ rest := by
            rw [hb.skipBlank, hstep.1.begins.skipBlank]
          have hread := hstep.1.front htorn.ended
          have hnext := nextElement_first hstep.1.begins hitem
          simp only [readElements, readElementsFrom, hnext, ok_bind,
            hread, readElementsFrom_torn htorn hrest]

end Elements

section Members

variable {member : String → σ → Reader σ} {items : List Named} {bytes : Bytes} {old new : σ}

-- What a member does to the state, unless the bytes run out behind its name.
def NamedCut (member : String → σ → Reader σ) (item : Named) (old new : σ) : Prop :=
  NamedStep member item old new ∧ ∀ ⦃cut more⦄, item.behindName = cut ++ more → more ≠ [] →
    Exhausted (member item.name old cut)

theorem Exhausted.readMembersFrom {result : Except Fault (σ × Bytes)} (h : Exhausted result)
    (member : String → σ → Reader σ) (count : Nat) :
    (do let (state, rest) ← result; readMembersFrom member count false state rest) =
      .error .ended := by
  rcases h with rfl | ⟨state, rfl⟩
  · rfl
  · cases count <;> rfl

-- A member that is cut off behind its opening quote, and whatever would stand behind it.
theorem NamedCut.readText {item : Named} {piece lost : Bytes} (h : NamedCut member item old new)
    (he : item.spelling ++ item.behindName = piece ++ lost) (hlost : lost ≠ []) (count : Nat) :
    (do
      let (name, rest) ← Quoted.readText piece
      let (state, rest) ← member name old rest
      readMembersFrom member count false state rest) = .error .ended := by
  rcases cut_append he with ⟨left, hleft, hspelling⟩ | ⟨left, rfl, hbehind⟩
  · rw [item.spells.readText_cut hspelling hleft]
    rfl
  · rw [item.spells.readText]
    exact (h.2 hbehind hlost).readMembersFrom member count

theorem readMembersFrom_torn (h : Torn (items.map Named.bytes) bytes)
    (hrun : Run (NamedCut member) items old new) (count : Nat) :
    readMembersFrom member count false old bytes = .error .ended := by
  induction hrun generalizing bytes count with
  | nil state =>
      cases h with
      | blank hb =>
          cases count with
          | zero => rfl
          | succ count => simp only [readMembersFrom, nextName_blank hb, error_bind]
  | @cons item items old middle new hstep _ ih =>
      cases count with
      | zero => rfl
      | succ count =>
          cases h with
          | blank hb => simp only [readMembersFrom, nextName_blank hb, error_bind]
          | @within before after _ piece lost _ hb ha he hlost =>
              have hcomma := hb.skipBlank_comma (after ++ piece)
              rw [item.bytes_eq] at he
              rcases cut_cons he with rfl | ⟨left, rfl, hleft⟩
              · have hne : comma ≠ closeObject := comma_ne_closing .object
                rw [List.append_nil] at hcomma ⊢
                have hend : nextName false (before ++ comma :: after) = .error .ended := by
                  simp only [nextName, hcomma, ha.skipBlank_self, hne, if_false, if_true,
                    Bool.false_eq_true]
                simp only [readMembersFrom, hend, error_bind]
              · have hname : skipBlank (after ++ quote :: left) = quote :: left := by
                  rw [ha.skipBlank, skipBlank_quote]
                simp only [readMembersFrom, nextName_next hcomma hname, ok_bind]
                exact hstep.readText hleft hlost count
          | @next before after _ rest _ hb ha htorn =>
              have hcomma := hb.skipBlank_comma (after ++ (item.bytes ++ rest))
              have hname : skipBlank (after ++ (item.bytes ++ rest)) =
                  quote :: (item.spelling ++ (item.behindName ++ rest)) := by
                rw [ha.skipBlank, item.bytes_eq, List.cons_append, skipBlank_quote,
                  List.append_assoc]
              have hread := hstep.1 rest htorn.ended
              simp only [readMembersFrom, nextName_next hcomma hname, ok_bind, item.spells.readText,
                hread, ih htorn]

-- An object that is cut off is never read either.
theorem readMembers_torn (h : TornOpen (items.map Named.bytes) bytes)
    (hrun : Run (NamedCut member) items old new) :
    readMembers member old bytes = .error .ended := by
  cases hrun with
  | nil state =>
      cases h with
      | blank hb => simp only [readMembers, readMembersFrom, nextName_blank hb, error_bind]
  | @cons item items old middle new hstep hrest =>
      cases h with
      | blank hb => simp only [readMembers, readMembersFrom, nextName_blank hb, error_bind]
      | @within blanks _ piece lost _ hb he hlost =>
          rw [item.bytes_eq] at he
          rcases cut_cons he with rfl | ⟨left, rfl, hleft⟩
          · rw [List.append_nil]
            simp only [readMembers, readMembersFrom, nextName_blank hb, error_bind]
          · have hname : skipBlank (blanks ++ quote :: left) = quote :: left := by
              rw [hb.skipBlank, skipBlank_quote]
            simp only [readMembers, readMembersFrom, nextName_first hname, ok_bind]
            exact hstep.readText hleft hlost _
      | @behind blanks _ rest _ hb htorn =>
          have hname : skipBlank (blanks ++ (item.bytes ++ rest)) =
              quote :: (item.spelling ++ (item.behindName ++ rest)) := by
            rw [hb.skipBlank, item.bytes_eq, List.cons_append, skipBlank_quote, List.append_assoc]
          have hread := hstep.1 rest htorn.ended
          simp only [readMembers, readMembersFrom, nextName_first hname, ok_bind,
            item.spells.readText, hread, readMembersFrom_torn htorn hrest]

end Members

section Colon

variable {member : Spaced} {cut more : Bytes}

-- Behind the name, the cut is in front of the colon, or leaves a part of the value.
theorem Spaced.readColon_cut (hbegins : Begins member.value)
    (he : member.behindName = cut ++ more) (hmore : more ≠ []) :
    Text.readColon cut = .error .ended ∨ ∃ text piece lost, Text.readColon cut = .ok text ∧
      skipBlank text = piece ∧ member.value = piece ++ lost ∧ lost ≠ [] ∧
      piece.length < cut.length := by
  have hcolon : ∀ gap, Blank gap → Text.readColon gap = .error .ended := by
    intro gap hgap
    unfold Text.readColon
    simp only [hgap.skipBlank_self]
  rcases cut_append he with ⟨left, _, hgap⟩ | ⟨left, rfl, hbehind⟩
  · have hblank := member.gap_blank
    rw [hgap] at hblank
    exact .inl (hcolon cut hblank.left)
  · rcases cut_cons hbehind with rfl | ⟨left, rfl, hvalue⟩
    · rw [List.append_nil]
      exact .inl (hcolon _ member.gap_blank)
    · have hread := readColon_behind member.gap_blank left
      rcases cut_append hvalue with ⟨blanks, _, hmargin⟩ | ⟨piece, rfl, hpiece⟩
      · have hblank := member.margin_blank
        rw [hmargin] at hblank
        refine .inr ⟨left, [], member.value, hread, hblank.left.skipBlank_self, rfl,
          hbegins.ne_nil, ?_⟩
        simp only [List.length_append, List.length_cons, List.length_nil]
        omega
      · refine .inr ⟨_, piece, more, hread, hbegins.skipBlank_piece hpiece member.margin_blank,
          hpiece, hmore, ?_⟩
        simp only [List.length_append, List.length_cons]
        omega

theorem Spaced.skipName_cut (hraw : Quoted.Raw member.spelling) (hbegins : Begins member.value)
    {blanks : Bytes} (hb : Blank blanks) (he : member.bytes = cut ++ more) (hmore : more ≠ []) :
    Text.skipName (blanks ++ cut) = .error .ended ∨ ∃ text piece lost,
      Text.skipName (blanks ++ cut) = .ok text ∧ skipBlank text = piece ∧
      member.value = piece ++ lost ∧ lost ≠ [] ∧ piece.length < cut.length := by
  rcases cut_cons he with rfl | ⟨left, rfl, hleft⟩
  · rw [List.append_nil]
    left
    simp only [Text.skipName, hb.skipBlank_self]
  · have hquote : skipBlank (blanks ++ quote :: left) = quote :: left := by
      rw [hb.skipBlank, skipBlank_quote]
    rcases cut_append hleft with ⟨lost, hlost, hspelling⟩ | ⟨behind, rfl, hbehind⟩
    · have hskip := hraw.skip_cut hspelling hlost
      left
      simp only [Text.skipName, hquote, if_true, hskip, error_bind]
    · have hskip : Text.skipName (blanks ++ quote :: (member.spelling ++ behind)) =
          Text.readColon behind := by
        simp only [Text.skipName, hquote, if_true, hraw.skip, ok_bind]
      rw [hskip]
      refine (readColon_cut hbegins hbehind hmore).imp_right ?_
      rintro ⟨text, piece, lost, hread, htext, hvalue, hlost, hlength⟩
      refine ⟨text, piece, lost, hread, htext, hvalue, hlost, ?_⟩
      simp only [List.length_cons, List.length_append]
      omega

end Colon

-- Wherever the bytes are cut off, skipping them fails for want of bytes, whatever brackets are open
-- around them. The bound is not what ends it.
def SkipEnds (bytes : Bytes) : Prop :=
  ∀ ⦃cut more⦄, bytes = cut ++ more → more ≠ [] → ∀ text, skipBlank text = cut →
    ∀ count around, cut.length < count → skipValueIn count around text = .error .ended

theorem SkipEnds.skipValue {bytes cut more text : Bytes} (h : SkipEnds bytes)
    (he : bytes = cut ++ more) (hmore : more ≠ []) (ht : skipBlank text = cut) :
    skipValue text = .error .ended := by
  have hle : (skipBlank text).length ≤ text.length := (List.dropWhile_suffix _).length_le
  rw [ht] at hle
  exact h he hmore text ht _ [] (Nat.lt_succ_of_le hle)

theorem skipEnds_text {spelling : Bytes} (hraw : Quoted.Raw spelling) :
    SkipEnds (quote :: spelling) := by
  intro cut more he hmore text ht count around hcount
  obtain ⟨count, rfl⟩ : ∃ n, count = n + 1 := ⟨count - 1, by omega⟩
  rcases cut_cons he with rfl | ⟨left, rfl, hleft⟩
  · simp only [skipValueIn, ht]
  · have hscalar : skipScalar (quote :: left) = .error .ended := hraw.skip_cut hleft hmore
    have hlist : quote ≠ openList := by decide
    have hobject : quote ≠ openObject := by decide
    simp only [skipValueIn, ht, hscalar, error_bind, hlist, hobject, if_false]

section Skipping

variable {bytes : Bytes}

theorem skipRestOf_elements_torn {items : List Bytes} (h : Torn items bytes)
    (hitems : ∀ item ∈ items, Skippable Number.Ended item ∧ SkipEnds item) (around : List Bracket)
    (count : Nat) (hc : bytes.length < count) :
    skipRestOf count (.list :: around) bytes = .error .ended := by
  induction h generalizing count with
  | blank hb =>
      obtain ⟨count, rfl⟩ : ∃ n, count = n + 1 := ⟨count - 1, by omega⟩
      simp only [skipRestOf, hb.skipBlank_self]
  | @within before after item piece lost items hb ha he hlost =>
      obtain ⟨count, rfl⟩ : ∃ n, count = n + 1 := ⟨count - 1, by omega⟩
      obtain ⟨hskippable, hends⟩ := hitems item List.mem_cons_self
      have hpiece := hskippable.begins.skipBlank_piece he ha
      simp only [List.length_append, List.length_cons] at hc
      rw [skipRestOf_element count around (hb.skipBlank_comma _)]
      exact hends he hlost _ hpiece count _ (by omega)
  | @next before after item rest items hb ha htorn ih =>
      obtain ⟨⟨hbegins, cost, hcost, hskip⟩, _⟩ := hitems item List.mem_cons_self
      simp only [List.length_append, List.length_cons] at hc
      obtain ⟨left, rfl⟩ : ∃ left, count = left + cost + 1 := ⟨count - cost - 1, by omega⟩
      have hitem : skipBlank (after ++ (item ++ rest)) = item ++ rest := by
        rw [ha.skipBlank, hbegins.skipBlank]
      rw [skipRestOf_element _ around (hb.skipBlank_comma _), hskip _ _ _ _ hitem htorn.ended]
      exact ih (fun other ho => hitems other (List.mem_cons_of_mem _ ho)) left (by omega)

theorem skipEnds_list {items : List Bytes} (hs : Spread .list items bytes)
    (hitems : ∀ item ∈ items, Skippable Number.Ended item ∧ SkipEnds item) :
    SkipEnds (openList :: bytes) := by
  intro cut more he hmore text ht count around hcount
  obtain ⟨count, rfl⟩ : ∃ n, count = n + 1 := ⟨count - 1, by omega⟩
  rcases cut_cons he with rfl | ⟨left, rfl, hleft⟩
  · simp only [skipValueIn, ht]
  · rw [List.length_cons] at hcount
    have hne : ∀ item ∈ items, item ≠ [] := fun item hi => (hitems item hi).1.begins.ne_nil
    cases hs.torn hne hleft hmore with
    | blank hb => simp only [skipValueIn, ht, if_true, hb.skipBlank_self]
    | @within blanks item piece lost items hb hitem hlost =>
        obtain ⟨hskippable, hends⟩ := hitems item List.mem_cons_self
        have hpiece := hskippable.begins.skipBlank_piece hitem hb
        cases piece with
        | nil => simp only [skipValueIn, ht, if_true, hpiece]
        | cons byte piece =>
            obtain ⟨_, _, hbyte, _, hclose⟩ := hskippable.begins.left hitem
            obtain ⟨rfl, _⟩ := List.cons_eq_cons.mp hbyte
            rw [skipValueIn_list count around ht hpiece, if_neg hclose]
            rw [List.length_append] at hcount
            exact hends hitem hlost _ hpiece count _ (by omega)
    | @behind blanks item rest items hb htorn =>
        obtain ⟨⟨⟨byte, body, hbyte, hnoblank, hclose⟩, cost, hcost, hskip⟩, _⟩ :=
          hitems item List.mem_cons_self
        simp only [List.length_append] at hcount
        obtain ⟨more, rfl⟩ : ∃ more, count = more + cost := ⟨count - cost, by omega⟩
        have hfirst : skipBlank (blanks ++ (item ++ rest)) = byte :: (body ++ rest) := by
          rw [hb.skipBlank, hbyte, List.cons_append, skipBlank_cons hnoblank]
        have hitem : skipBlank (blanks ++ (item ++ rest)) = item ++ rest := by
          rw [hfirst, hbyte, List.cons_append]
        rw [skipValueIn_list _ around ht hfirst, if_neg hclose, hskip _ _ _ _ hitem htorn.ended]
        exact skipRestOf_elements_torn htorn
          (fun other ho => hitems other (List.mem_cons_of_mem _ ho)) around more (by omega)

theorem skipRestOf_members_torn {members : List Spaced}
    (h : Torn (members.map Spaced.bytes) bytes)
    (hmembers : ∀ member ∈ members, Quoted.Raw member.spelling ∧
      Skippable Number.Ended member.value ∧ SkipEnds member.value) (around : List Bracket)
    (count : Nat) (hc : bytes.length < count) :
    skipRestOf count (.object :: around) bytes = .error .ended := by
  obtain ⟨count, rfl⟩ : ∃ n, count = n + 1 := ⟨count - 1, by omega⟩
  induction members generalizing bytes count with
  | nil =>
      cases h with
      | blank hb => simp only [skipRestOf, hb.skipBlank_self]
  | cons member members ih =>
      obtain ⟨hraw, hskippable, hends⟩ := hmembers member List.mem_cons_self
      cases h with
      | blank hb => simp only [skipRestOf, hb.skipBlank_self]
      | @within before after _ piece lost _ hb ha he hlost =>
          simp only [List.length_append, List.length_cons] at hc
          rcases member.skipName_cut hraw hskippable.begins ha he hlost with
            hname | ⟨text, left, missing, hname, ht, hvalue, hmissing, hlength⟩
          · simp only [skipRestOf, hb.skipBlank_comma, if_true, hname, error_bind]
          · rw [skipRestOf_member count around (hb.skipBlank_comma _) hname]
            exact hends hvalue hmissing text ht count _ (by omega)
      | @next before after _ rest _ hb ha htorn =>
          obtain ⟨hbegins, cost, hcost, hskip⟩ := hskippable
          have hlength := member.length_value_lt
          simp only [List.length_append, List.length_cons] at hc
          obtain ⟨left, rfl⟩ : ∃ left, count = left + 1 + cost := ⟨count - cost - 1, by omega⟩
          have hname := member.skipName hraw ha rest
          have hvalue := member.skipBlank_value hbegins rest
          rw [skipRestOf_member _ around (hb.skipBlank_comma _) hname,
            hskip _ _ _ _ hvalue htorn.ended]
          exact ih htorn
            (fun other ho => hmembers other (List.mem_cons_of_mem _ ho)) left (by omega)

theorem skipValueIn_object_blank {text : Bytes} {count : Nat} {around : List Bracket}
    (ht : skipBlank text = openObject :: bytes) (hb : skipBlank bytes = []) :
    skipValueIn (count + 1) around text = .error .ended := by
  simp only [skipValueIn, ht, openObject_ne_openList, if_false, if_true, hb]

-- The cut is in the first member.
theorem skipValueIn_object_within {member : Spaced} {text blanks piece lost : Bytes} {count : Nat}
    {around : List Bracket} (hraw : Quoted.Raw member.spelling) (hbegins : Begins member.value)
    (hends : SkipEnds member.value) (hb : Blank blanks) (he : member.bytes = piece ++ lost)
    (hlost : lost ≠ []) (ht : skipBlank text = openObject :: (blanks ++ piece))
    (hc : piece.length ≤ count) : skipValueIn (count + 1) around text = .error .ended := by
  rcases cut_cons he with rfl | ⟨name, rfl, _⟩
  · rw [List.append_nil] at ht
    exact skipValueIn_object_blank ht hb.skipBlank_self
  · have hquote : skipBlank (blanks ++ quote :: name) = quote :: name := by
      rw [hb.skipBlank, skipBlank_quote]
    rcases member.skipName_cut hraw hbegins hb he hlost with
      hname | ⟨text, left, missing, hname, htext, hvalue, hmissing, hlength⟩
    · simp only [skipValueIn, ht, hquote, hname, error_bind, openObject_ne_openList,
        quote_ne_closeObject, if_false, if_true]
    · rw [skipValueIn_object count around ht hquote hname]
      exact hends hvalue hmissing text htext count _ (by omega)

theorem skipEnds_object {members : List Spaced}
    (hs : Spread .object (members.map Spaced.bytes) bytes)
    (hmembers : ∀ member ∈ members, Quoted.Raw member.spelling ∧
      Skippable Number.Ended member.value ∧ SkipEnds member.value) :
    SkipEnds (openObject :: bytes) := by
  intro cut more he hmore text ht count around hcount
  obtain ⟨count, rfl⟩ : ∃ n, count = n + 1 := ⟨count - 1, by omega⟩
  rcases cut_cons he with rfl | ⟨left, rfl, hleft⟩
  · simp only [skipValueIn, ht]
  · rw [List.length_cons] at hcount
    have hne : ∀ item ∈ members.map Spaced.bytes, item ≠ [] := by
      intro item hi
      obtain ⟨member, _, rfl⟩ := List.mem_map.mp hi
      exact List.cons_ne_nil _ _
    have htorn := hs.torn hne hleft hmore
    cases members with
    | nil =>
        cases htorn with
        | blank hb => exact skipValueIn_object_blank ht hb.skipBlank_self
    | cons member members =>
        obtain ⟨hraw, hskippable, hends⟩ := hmembers member List.mem_cons_self
        cases htorn with
        | blank hb => exact skipValueIn_object_blank ht hb.skipBlank_self
        | @within blanks _ piece lost _ hb hitem hlost =>
            simp only [List.length_append] at hcount
            exact skipValueIn_object_within hraw hskippable.begins hends hb hitem hlost ht
              (by omega)
        | @behind blanks _ rest _ hb htorn =>
            obtain ⟨hbegins, cost, hcost, hskip⟩ := hskippable
            have hlength := member.length_value_lt
            simp only [List.length_append] at hcount
            obtain ⟨left, rfl⟩ : ∃ left, count = left + cost := ⟨count - cost, by omega⟩
            have hquote := member.skipBlank_bytes hb rest
            have hname := member.skipName hraw hb rest
            have hvalue := member.skipBlank_value hbegins rest
            rw [skipValueIn_object _ around ht hquote hname, hskip _ _ _ _ hvalue htorn.ended]
            exact skipRestOf_members_torn htorn
              (fun other ho => hmembers other (List.mem_cons_of_mem _ ho)) around left (by omega)

end Skipping

namespace Tree

-- A written tree is skipped, and runs out while it is skipped wherever it is cut off.
structure SkipsCut (tree : Tree) : Prop where
  skips : tree.Skips
  ends : ∀ depth, SkipEnds (tree.write depth)

theorem skipsCut_text (value : String) : (text value).SkipsCut :=
  ⟨skips_text value, fun _ => skipEnds_text (Quoted.spells_behindQuote value).raw⟩

theorem skipsCut_list {trees : List Tree} (h : ∀ tree ∈ trees, tree.SkipsCut) :
    (list trees).SkipsCut := by
  refine ⟨skips_list fun tree ht => (h tree ht).skips, ?_⟩
  intro depth
  obtain ⟨body, he, hspread⟩ := spread_list depth trees
  rw [he]
  apply skipEnds_list hspread
  intro item hi
  obtain ⟨tree, ht, rfl⟩ := List.mem_map.mp hi
  exact ⟨(h tree ht).skips.skippable (depth + 1) _, (h tree ht).ends (depth + 1)⟩

theorem skipsCut_object {entries : List (String × Tree)}
    (h : ∀ entry ∈ entries, entry.2.SkipsCut) : (object entries).SkipsCut := by
  refine ⟨skips_object fun entry he => (h entry he).skips, ?_⟩
  intro depth
  obtain ⟨body, he, hspread⟩ := spread_object depth entries
  rw [he]
  apply skipEnds_object hspread.spaced
  intro member hm
  obtain ⟨entry, hentry, rfl⟩ := List.mem_map.mp (List.map_map ▸ hm)
  exact ⟨(Quoted.spells_behindQuote entry.1).raw,
    (h entry hentry).skips.skippable (depth + 1) _, (h entry hentry).ends (depth + 1)⟩

end Tree

end TableHistory.Text
