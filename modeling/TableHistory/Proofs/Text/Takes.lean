import TableHistory.Proofs.OrderedMap
import TableHistory.Proofs.Text.Spread
import TableHistory.Text.Form

namespace TableHistory.Text

variable {α β : Type}

theorem readBy_eq {choose : UInt8 → Option (Reader α)} {read : Reader α} {bytes rest : Bytes}
    {byte : UInt8} (hb : skipBlank bytes = byte :: rest) (hc : choose byte = some read) :
    readBy choose bytes = read (byte :: rest) := by
  unfold readBy
  simp only [hb, hc]

-- A reader that is chosen by the first byte.
theorem Takes.readBy {choose : UInt8 → Option (Reader α)} {read : Reader α} {byte : UInt8}
    {bytes : Bytes} {value : α} (hb : isBlank byte = false ∧ byte ≠ closeList)
    (hc : choose byte = some read)
    (h : ∀ rest, Number.Ended rest → read (byte :: (bytes ++ rest)) = .ok (value, rest)) :
    Takes (readBy choose) (byte :: bytes) value := by
  refine ⟨⟨byte, bytes, rfl, hb⟩, ?_⟩
  intro text rest ht hr
  exact (readBy_eq ht hc).trans (h rest hr)

theorem readWord_append (word rest : Bytes) : readWord word (word ++ rest) = .ok rest := by
  induction word with
  | nil => rfl
  | cons byte word ih => simp only [List.cons_append, readWord, if_true, ih]

theorem Number.startsNumber_ne {byte : UInt8} (h : startsNumber byte = true) :
    isBlank byte = false ∧ byte ≠ closeList ∧ byte ≠ ascii 'n' := by
  refine ⟨?_, ?_, ?_⟩
  · apply Bool.eq_false_iff.mpr
    intro hb
    simp only [isBlank, Bool.or_eq_true, decide_eq_true_eq] at hb
    rcases hb with ((rfl | rfl) | rfl) | rfl <;> exact absurd h (by decide)
  · rintro rfl
    exact absurd h (by decide)
  · rintro rfl
    exact absurd h (by decide)

theorem Spaced.readColon (member : Spaced) (rest : Bytes) :
    readColon (member.behindName ++ rest) = .ok (member.margin ++ (member.value ++ rest)) := by
  rw [behindName, List.append_assoc, List.cons_append, List.append_assoc]
  exact readColon_behind member.gap_blank _

namespace Form

-- A whole text, with any blanks around its value.
theorem decode_takes {form : Form α} {before bytes after : Bytes} {value : α}
    (h : Takes form.read bytes value) (hb : Blank before) (ha : Blank after) :
    form.decode (before ++ (bytes ++ after)) = .ok value := by
  have hended := ha.ended Number.ended_nil
  rw [List.append_nil] at hended
  have hread := h.behind hb hended
  have hover : (skipBlank after).isEmpty = true := by rw [ha.skipBlank_self]; rfl
  simp only [decode, hread, ok_bind, hover, if_true, pure_eq_ok]

theorem text_takes {value : String} {spelling : Bytes}
    (h : Quoted.Spells (Utf8.encode value) spelling) :
    Takes text.read (quote :: spelling) value :=
  .readBy (by decide) rfl fun rest _ => h.readText rest

theorem bool_takes (value : Bool) :
    Takes bool.read (if value then trueWord else falseWord) value := by
  cases value with
  | false =>
      refine .readBy (by decide) rfl fun rest _ => ?_
      exact congrArg (Except.map (false, ·)) (readWord_append falseWord rest)
  | true =>
      refine .readBy (by decide) rfl fun rest _ => ?_
      exact congrArg (Except.map (true, ·)) (readWord_append trueWord rest)

theorem ofRange_takes {least most : Int} {ofInt : Int → α} {toInt : α → Int} {value : α}
    (hl : -2 ^ 63 ≤ least) (hu : most < 2 ^ 64)
    (hr : least ≤ toInt value ∧ toInt value ≤ most) (hback : ofInt (toInt value) = value) :
    Takes (ofRange least most ofInt toInt).read (Number.write (toInt value)) value := by
  obtain ⟨byte, more, hw, hs⟩ := Number.write_head (toInt value)
  obtain ⟨hblank, hclose, _⟩ := Number.startsNumber_ne hs
  rw [hw]
  refine .readBy ⟨hblank, hclose⟩ (if_pos hs) fun rest he => ?_
  have hread := Number.read_write (toInt value) (by omega) (by omega) he
  rw [hw, List.cons_append] at hread
  simp only [hread, ok_bind, hr, and_self, if_true, hback, pure_eq_ok]

theorem int64_takes (value : Int64) : Takes int64.read (Number.write value.toInt) value := by
  have hleast := Int64.le_toInt value
  have hmost := Int64.toInt_lt value
  exact ofRange_takes (by decide) (by decide) ⟨hleast, by omega⟩ (Int64.ofInt_toInt value)

variable {form : Form α} {bytes : Bytes}

theorem via_takes {value : α} (wrap : α → β) (unwrap : β → α) (h : Takes form.read bytes value) :
    Takes (form.via wrap unwrap).read bytes (wrap value) := by
  refine ⟨h.begins, ?_⟩
  intro text rest ht hr
  simp only [via, h.takes text rest ht hr, Except.map]

-- Puts an element in front of those before it.
def push (form : Form α) (values : List α) : Reader (List α) := fun bytes => do
  let (value, rest) ← form.read bytes
  return (value :: values, rest)

theorem push_run {items : List (Bytes × α)} (h : ∀ item ∈ items, Takes form.read item.1 item.2)
    (front : List α) :
    Run (ItemStep form.push) (items.map Prod.fst) front
      ((items.map Prod.snd).reverse ++ front) := by
  induction items generalizing front with
  | nil => exact .nil front
  | cons item items ih =>
      have hitem := h item List.mem_cons_self
      have hnext := ih (fun other ho => h other (List.mem_cons_of_mem _ ho)) (item.2 :: front)
      simp only [List.map_cons, List.reverse_cons, List.append_assoc, List.singleton_append]
      refine .cons ⟨hitem.begins, ?_⟩ hnext
      intro text rest ht hr
      simp only [push, hitem.takes text rest ht hr, ok_bind, pure_eq_ok]

theorem listOf_takes {items : List (Bytes × α)} (hs : Spread .list (items.map Prod.fst) bytes)
    (h : ∀ item ∈ items, Takes form.read item.1 item.2) :
    Takes (listOf form).read (openList :: bytes) (items.map Prod.snd) := by
  refine .readBy (by decide) rfl fun rest _ => ?_
  have hread := readElements_spread hs (push_run h []) rest
  unfold push at hread
  simp only [pure_eq_ok] at hread
  simp only [List.tail_cons, pure_eq_ok, hread, ok_bind, List.append_nil, List.reverse_reverse]

-- Enters a value under its name.
def enter (form : Form α) (name : String) (map : OrderedMap String α) :
    Reader (OrderedMap String α) := fun bytes => do
  let (value, rest) ← form.read (← readColon bytes)
  return (map.insert name value, rest)

theorem enter_run {members : List (Named × α)}
    (h : ∀ member ∈ members, Takes form.read member.1.value member.2)
    (map : OrderedMap String α) :
    Run (NamedStep form.enter) (members.map Prod.fst) map
      ((members.map fun member => (member.1.name, member.2)).foldl
        (fun map entry => map.insert entry.1 entry.2) map) := by
  induction members generalizing map with
  | nil => exact .nil map
  | cons member members ih =>
      have hnext := ih (fun other ho => h other (List.mem_cons_of_mem _ ho))
        (map.insert member.1.name member.2)
      refine .cons ?_ hnext
      intro rest hr
      have hvalue := (h member List.mem_cons_self).behind member.1.margin_blank hr
      have hcolon := member.1.readColon rest
      simp only [enter, Named.behindName, hcolon, ok_bind, hvalue, pure_eq_ok]

theorem mapOf_takes {members : List (Named × α)} {map : OrderedMap String α}
    (hs : Spread .object ((members.map Prod.fst).map Named.bytes) bytes)
    (hperm : (members.map fun member => (member.1.name, member.2)).Perm map.entries)
    (h : ∀ member ∈ members, Takes form.read member.1.value member.2) :
    Takes (mapOf form).read (openObject :: bytes) map := by
  refine .readBy (by decide) rfl fun rest _ => ?_
  have hread := readMembers_spread hs (enter_run h .empty) rest
  have hback := OrderedMap.foldl_insert_perm hperm.symm map.nodup_keys .empty
  have hentries : map.entries.foldl (fun map entry => map.insert entry.1 entry.2) .empty = map :=
    map.ofList_entries
  rw [← hback, hentries] at hread
  exact hread

theorem optional_takes {value : α} (h : Takes form.read bytes value)
    (hn : ascii 'n' ∉ bytes.head?) : Takes (optional form).read bytes (some value) := by
  refine ⟨h.begins, ?_⟩
  intro text rest ht hr
  obtain ⟨byte, more, rfl, _, _⟩ := h.begins
  have hpresent : byte ≠ ascii 'n' := by
    rw [List.head?_cons, Option.mem_some_iff] at hn
    exact hn
  have hread := h.front hr
  rw [List.cons_append] at ht hread
  simp only [optional, ht, hpresent, if_false, hread]
  rfl

theorem optional_null_takes (form : Form α) : Takes (optional form).read nullWord none := by
  refine ⟨⟨ascii 'n', _, rfl, by decide⟩, ?_⟩
  intro text rest ht _
  have hword : readWord nullWord (ascii 'n' :: (nullWord.tail ++ rest)) = .ok rest :=
    readWord_append nullWord rest
  have hnull : skipBlank text = ascii 'n' :: (nullWord.tail ++ rest) := ht
  simp only [optional, hnull, if_true, hword]
  rfl

theorem nullAs_takes {value : Option α} (zero : α) (h : Takes (optional form).read bytes value) :
    Takes (nullAs zero form).read bytes (value.getD zero) := by
  refine ⟨h.begins, ?_⟩
  intro text rest ht hr
  simp only [nullAs, h.takes text rest ht hr]
  rfl

end Form

end TableHistory.Text
