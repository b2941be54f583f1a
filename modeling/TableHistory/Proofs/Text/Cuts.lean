import TableHistory.Proofs.Text.Record
import TableHistory.Proofs.Text.Torn

namespace TableHistory.Text

variable {α β γ : Type}

theorem readWord_cut {word cut more : Bytes} (he : word = cut ++ more) (hmore : more ≠ []) :
    readWord word cut = .error .ended := by
  induction cut generalizing word with
  | nil =>
      obtain ⟨byte, rest, rfl⟩ := List.exists_cons_of_ne_nil hmore
      rw [he]
      rfl
  | cons byte cut ih =>
      rw [he]
      simp only [List.cons_append, readWord, if_true]
      exact ih rfl

-- A reader that is chosen by the first byte, behind which the end is missing.
theorem runsOut_readBy {choose : UInt8 → Option (Reader α)} {read : Reader α} {byte : UInt8}
    {bytes : Bytes} (hc : choose byte = some read)
    (h : ∀ cut more, bytes = cut ++ more → more ≠ [] → Exhausted (read (byte :: cut))) :
    RunsOut (readBy choose) (byte :: bytes) := by
  intro cut more he hmore text ht
  rcases cut_cons he with rfl | ⟨left, rfl, hleft⟩
  · exact .inl (by simp only [readBy, ht])
  · rw [readBy_eq ht hc]
    exact h left more hleft hmore

theorem unfinished_readBy {choose : UInt8 → Option (Reader α)} {read : Reader α} {byte : UInt8}
    {bytes : Bytes} (hc : choose byte = some read)
    (h : ∀ cut more, bytes = cut ++ more → more ≠ [] → read (byte :: cut) = .error .ended) :
    Unfinished (readBy choose) (byte :: bytes) := by
  intro cut more he hmore text ht
  rcases cut_cons he with rfl | ⟨left, rfl, hleft⟩
  · simp only [readBy, ht]
  · rw [readBy_eq ht hc]
    exact h left more hleft hmore

namespace Form

variable {form : Form α} {bytes : Bytes}

theorem text_unfinished {value : String} {spelling : Bytes}
    (h : Quoted.Spells (Utf8.encode value) spelling) : Unfinished text.read (quote :: spelling) :=
  unfinished_readBy rfl fun _ _ he hmore => h.readText_cut he hmore

theorem bool_unfinished (value : Bool) :
    Unfinished bool.read (if value then trueWord else falseWord) := by
  cases value with
  | false =>
      refine unfinished_readBy rfl fun cut more he hmore => ?_
      have hword : readWord falseWord (ascii 'f' :: cut) = .error .ended :=
        readWord_cut (congrArg (ascii 'f' :: ·) he) hmore
      exact congrArg (Except.map (false, ·)) hword
  | true =>
      refine unfinished_readBy rfl fun cut more he hmore => ?_
      have hword : readWord trueWord (ascii 't' :: cut) = .error .ended :=
        readWord_cut (congrArg (ascii 't' :: ·) he) hmore
      exact congrArg (Except.map (true, ·)) hword

-- What is left of a number is nearer to zero, and so in range.
theorem int64_runsOut (value : Int64) : RunsOut int64.read (Number.write value.toInt) := by
  have hleast := Int64.le_toInt value
  have hmost := Int64.toInt_lt value
  obtain ⟨byte, bytes, hw, hs⟩ := Number.write_head value.toInt
  rw [hw]
  refine runsOut_readBy (if_pos hs) fun cut more he hmore => ?_
  have hcut : Number.write value.toInt = (byte :: cut) ++ more := by rw [hw, he, List.cons_append]
  rcases Number.read_cut (by omega) (by omega) hcut hmore with hread | ⟨nearer, hread, hnear⟩
  · exact .inl (by simp only [hread, error_bind])
  · have hrange : -2 ^ 63 ≤ nearer ∧ nearer ≤ 2 ^ 63 - 1 := by omega
    refine .inr ⟨Int64.ofInt nearer, ?_⟩
    simp only [hread, ok_bind, if_pos hrange, pure_eq_ok]

theorem via_runsOut (wrap : α → β) (unwrap : β → α) (h : RunsOut form.read bytes) :
    RunsOut (form.via wrap unwrap).read bytes :=
  fun _ _ he hmore text ht => (h he hmore text ht).map wrap

theorem push_exhausted {piece : Bytes} (h : Exhausted (form.read piece)) (values : List α) :
    Exhausted (form.push values piece) := by
  rcases h with h | ⟨value, h⟩
  · exact .inl (by simp only [push, h, error_bind])
  · exact .inr ⟨value :: values, by simp only [push, h, ok_bind, pure_eq_ok]⟩

theorem listOf_unfinished {items : List (Bytes × α)} (hs : Spread .list (items.map Prod.fst) bytes)
    (h : ∀ item ∈ items, Takes form.read item.1 item.2 ∧ RunsOut form.read item.1) :
    Unfinished (listOf form).read (openList :: bytes) := by
  have hne : ∀ item ∈ items.map Prod.fst, item ≠ [] := by
    intro bytes hb
    obtain ⟨item, hi, rfl⟩ := List.mem_map.mp hb
    exact (h item hi).1.begins.ne_nil
  obtain ⟨values, hrun⟩ : ∃ values, Run (ItemCut form.push) (items.map Prod.fst) [] values := by
    refine ⟨_, (push_run (fun item hi => (h item hi).1) []).mapState id ?_⟩
    intro bytes hb old new hstep
    obtain ⟨item, hi, rfl⟩ := List.mem_map.mp hb
    exact ⟨hstep, fun _ _ he hmore text ht =>
      push_exhausted ((h item hi).2 he hmore text ht) old⟩
  refine unfinished_readBy rfl fun cut more he hmore => ?_
  have hread := readElements_torn (hs.torn hne he hmore) hrun
  unfold push at hread
  simp only [List.tail_cons, hread, error_bind]

-- Behind a name, the end is missing.
theorem enter_exhausted {member : Spaced} {cut more : Bytes} (hbegins : Begins member.value)
    (h : RunsOut form.read member.value) (he : member.behindName = cut ++ more) (hmore : more ≠ [])
    (name : String) (map : OrderedMap String α) : Exhausted (form.enter name map cut) := by
  rcases Spaced.readColon_cut hbegins he hmore with
    hcolon | ⟨text, piece, lost, hcolon, ht, hvalue, hlost, _⟩
  · exact .inl (by simp only [enter, hcolon, error_bind])
  · rcases h hvalue hlost text ht with hread | ⟨value, hread⟩
    · exact .inl (by simp only [enter, hcolon, ok_bind, hread, error_bind])
    · exact .inr ⟨map.insert name value, by
        simp only [enter, hcolon, ok_bind, hread, pure_eq_ok]⟩

theorem mapOf_unfinished {members : List (Named × α)}
    (hs : Spread .object ((members.map Prod.fst).map Named.bytes) bytes)
    (h : ∀ member ∈ members,
      Takes form.read member.1.value member.2 ∧ RunsOut form.read member.1.value) :
    Unfinished (mapOf form).read (openObject :: bytes) := by
  obtain ⟨map, hrun⟩ : ∃ map, Run (NamedCut form.enter) (members.map Prod.fst) .empty map := by
    refine ⟨_, (enter_run (fun member hm => (h member hm).1) .empty).mapState id ?_⟩
    intro item hi old new hstep
    obtain ⟨member, hm, rfl⟩ := List.mem_map.mp hi
    obtain ⟨htakes, hruns⟩ := h member hm
    exact ⟨hstep, fun _ _ he hmore => enter_exhausted htakes.begins hruns he hmore _ old⟩
  refine unfinished_readBy rfl fun cut more he hmore => ?_
  exact readMembers_torn (hs.torn_named he hmore) hrun

theorem optional_runsOut (hbegins : Begins bytes) (hn : ascii 'n' ∉ bytes.head?)
    (h : RunsOut form.read bytes) : RunsOut (optional form).read bytes := by
  intro cut more he hmore text ht
  cases cut with
  | nil => exact .inl (by simp only [optional, ht])
  | cons byte cut =>
      have hpresent : byte ≠ ascii 'n' := by
        rw [he, List.cons_append, List.head?_cons, Option.mem_some_iff] at hn
        exact hn
      have hread := h he hmore (byte :: cut) (hbegins.skipBlank_piece he Blank.nil)
      simp only [optional, ht, hpresent, if_false]
      exact hread.map some

theorem optional_null_runsOut (form : Form α) : RunsOut (optional form).read nullWord := by
  intro cut more he hmore text ht
  have hword := readWord_cut he hmore
  left
  cases cut with
  | nil => simp only [optional, ht]
  | cons byte cut =>
      obtain ⟨rfl, _⟩ := List.cons_eq_cons.mp he
      simp only [optional, ht]
      exact congrArg (Except.map (none, ·)) hword

theorem nullAs_runsOut (zero : α) (h : RunsOut (optional form).read bytes) :
    RunsOut (nullAs zero form).read bytes :=
  fun _ _ he hmore text ht => (h he hmore text ht).map fun result => result.getD zero

-- Wherever what is written for the value is cut off, the form has no bytes left behind it.
def CutOff (form : Form α) (value : α) : Prop :=
  ∀ depth, RunsOut form.read ((form.tree value).write depth)

theorem text_cutOff (value : String) : text.CutOff value :=
  fun _ => (text_unfinished (Quoted.spells_behindQuote value)).runsOut

theorem bool_cutOff (value : Bool) : bool.CutOff value := by
  intro depth
  have hcut := (bool_unfinished value).runsOut
  cases value <;> exact hcut

theorem int64_cutOff (value : Int64) : int64.CutOff value :=
  fun _ => int64_runsOut value

theorem listOf_cutOff {values : List α}
    (h : ∀ value ∈ values, form.Restores value ∧ form.CutOff value) :
    (listOf form).CutOff values := by
  intro depth
  obtain ⟨body, he, hspread⟩ := form.spread_items depth values
  rw [he]
  refine (listOf_unfinished hspread ?_).runsOut
  intro item hi
  obtain ⟨value, hv, rfl⟩ := List.mem_map.mp hi
  obtain ⟨hrestores, hcut⟩ := h value hv
  exact ⟨hrestores.reads.takes (depth + 1), hcut (depth + 1)⟩

theorem mapOf_cutOff {map : OrderedMap String α}
    (h : ∀ entry ∈ map.entries, form.Restores entry.2 ∧ form.CutOff entry.2) :
    (mapOf form).CutOff map := by
  intro depth
  obtain ⟨body, he, hspread⟩ := form.spread_members depth map
  rw [he]
  refine (mapOf_unfinished hspread ?_).runsOut
  intro member hm
  obtain ⟨entry, hentry, rfl⟩ := List.mem_map.mp hm
  obtain ⟨hrestores, hcut⟩ := h entry hentry
  exact ⟨hrestores.reads.takes (depth + 1), hcut (depth + 1)⟩

theorem optional_cutOff {value : Option α}
    (h : ∀ present ∈ value, form.Restores present ∧ form.CutOff present) :
    (optional form).CutOff value := by
  intro depth
  cases value with
  | none => exact optional_null_runsOut form
  | some value =>
      obtain ⟨hrestores, hcut⟩ := h value rfl
      exact optional_runsOut (hrestores.reads.begins depth) (hrestores.present depth) (hcut depth)

theorem nullAs_cutOff {value : α} (zero : α) (hrestores : form.Restores value)
    (h : form.CutOff value) : (nullAs zero form).CutOff value := by
  intro depth
  apply nullAs_runsOut
  exact optional_runsOut (hrestores.reads.begins depth) (hrestores.present depth) (h depth)

end Form

namespace Places

-- Wherever a member's value is cut off, the place of its name has no bytes left behind it. A value
-- without a place runs out while it is skipped.
def CutOff (name : String) (bytes : Bytes) : {β : Type} → Places β → Prop
  | _, nil => SkipEnds bytes
  | _, cons place rest =>
    if name = place.name then RunsOut place.read bytes else rest.CutOff name bytes

-- What is left of a member that could have been read whole.
theorem readMember_exhausted {places : Places β} {member : Named} {cut more bytes : Bytes}
    {old : places.Draft} {result : places.Draft × Bytes} (hbegins : Begins member.value)
    (h : places.CutOff member.name member.value) (he : member.behindName = cut ++ more)
    (hmore : more ≠ []) (hread : places.readMember member.name old bytes = .ok result) :
    Exhausted (places.readMember member.name old cut) := by
  have hcut := Spaced.readColon_cut hbegins he hmore
  induction places with
  | nil =>
      rcases hcut with hcolon | ⟨text, piece, lost, hcolon, ht, hvalue, hlost, _⟩
      · exact .inl (by simp only [readMember, hcolon, error_bind])
      · have hskip := SkipEnds.skipValue h hvalue hlost ht
        exact .inl (by simp only [readMember, hcolon, ok_bind, hskip, error_bind])
  | cons place rest ih =>
      obtain ⟨first, others⟩ := old
      by_cases hname : member.name = place.name
      · simp only [CutOff, if_pos hname] at h
        cases first with
        | some value =>
            simp only [readMember, if_pos hname] at hread
            cases hread
        | none =>
            rcases hcut with hcolon | ⟨text, piece, lost, hcolon, ht, hvalue, hlost, _⟩
            · exact .inl (by simp only [readMember, if_pos hname, hcolon, error_bind])
            · rcases h hvalue hlost text ht with hplace | ⟨value, hplace⟩
              · exact .inl (by
                  simp only [readMember, if_pos hname, hcolon, ok_bind, hplace, error_bind])
              · exact .inr ⟨(some value, others), by
                  simp only [readMember, if_pos hname, hcolon, ok_bind, hplace, pure_eq_ok]⟩
      · simp only [CutOff, if_neg hname] at h
        simp only [readMember, if_neg hname] at hread
        obtain ⟨next, hnext, _⟩ := bind_eq_ok.mp hread
        rcases ih h hnext with hrest | ⟨last, hrest⟩
        · exact .inl (by simp only [readMember, if_neg hname, hrest, error_bind])
        · exact .inr ⟨(first, last), by
            simp only [readMember, if_neg hname, hrest, ok_bind, pure_eq_ok]⟩

theorem Fills.begins {places : Places β} {entries : List (String × Tree)} {values : β}
    (h : places.Fills entries values) : ∀ entry ∈ entries, entry.2.Begins := by
  induction h with
  | skipped h => exact fun entry he => (h entry he).begins
  | present hread _ _ ih =>
      intro entry he
      rcases List.mem_cons.mp he with rfl | he
      · exact hread.begins
      · exact ih entry he
  | absent _ _ _ ih => exact ih

end Places

-- A record that is cut off is never read, whatever places it is read into.
theorem Form.record_unfinished {places : Places β} {entries : List (String × Tree)} {values : β}
    (pack : β → α) (unpack : α → β) (h : places.Fills entries values) (depth : Nat)
    (hcut : ∀ entry ∈ entries, places.CutOff entry.1 (entry.2.write (depth + 1))) :
    Unfinished (record places pack unpack).read ((Tree.object entries).write depth) := by
  obtain ⟨body, he, hspread⟩ := spread_object depth entries
  obtain ⟨draft, hrun, _⟩ := h.run
  have hcuts : Run (NamedCut fun name => places.readMember name)
      (entries.map (Named.written (depth + 1))) places.blank draft := by
    refine hrun.map _ id ?_
    intro entry hm old new hstep
    refine ⟨hstep (depth + 1), ?_⟩
    intro cut more he hmore
    exact Places.readMember_exhausted (h.begins entry hm (depth + 1)) (hcut entry hm) he hmore
      (hstep (depth + 1) [] Number.ended_nil)
  rw [he]
  refine unfinished_readBy rfl fun cut more he hmore => ?_
  have hread := readMembers_torn (hspread.torn_named he hmore) hcuts
  simp only [List.tail_cons, hread, error_bind]

end TableHistory.Text
