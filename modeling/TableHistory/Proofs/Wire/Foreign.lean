import TableHistory.Proofs.Wire.Reading

namespace TableHistory.Wire

namespace Varint

-- Bytes that stand for a number: seven bits each, the lowest first, with the high bit set in all
-- but the last. The highest bytes may be zero, as long as there are no more bytes than places.
inductive Spells : Nat → Bytes → Nat → Prop
  | last {places : Nat} {byte : UInt8} (hlast : byte.toNat < 128) :
      Spells (places + 1) [byte] byte.toNat
  | more {places high : Nat} {byte : UInt8} {rest : Bytes} (hmore : 128 ≤ byte.toNat)
      (hrest : Spells places rest high) :
      Spells (places + 1) (byte :: rest) (byte.toNat - 128 + 128 * high)

theorem decode?_of_spells {places number : Nat} {bytes : Bytes}
    (h : Spells (places + 1) bytes number) (hfits : number >>> (7 * places) < 2) (rest : Bytes) :
    decode? (places + 1) (bytes ++ rest) = some (number, rest) := by
  induction places generalizing bytes number with
  | zero =>
      cases h with
      | @last _ byte hlast =>
          have hbit : byte.toNat < 2 := hfits
          simp only [List.cons_append, List.nil_append, decode?, hbit, if_true]
      | more hmore hrest => cases hrest
  | succ places ih =>
      cases h with
      | last hlast => simp only [List.cons_append, List.nil_append, decode?, hlast, if_true]
      | @more _ high byte bytes hmore hrest =>
          have hbyte := byte.toNat_lt
          have hhigh : high >>> (7 * places) < 2 := by
            have hseven : (byte.toNat - 128 + 128 * high) / 128 = high := by omega
            rw [show 7 * (places + 1) = 7 + 7 * places by omega, Nat.shiftRight_add,
              Nat.shiftRight_eq_div_pow _ 7, hseven] at hfits
            exact hfits
          have hlong : ¬ byte.toNat < 128 := by omega
          simp only [List.cons_append, decode?, hlong, if_false, ih hrest hhigh, Option.map_some]

theorem spells_encode {places number : Nat} (h : number < Nat.pow 128 (places + 1)) :
    Spells (places + 1) (encode (places + 1) number) number := by
  induction places generalizing number with
  | zero =>
      have hsmall : number < 128 := h
      have hbyte : (UInt8.ofNat number).toNat = number := by
        rw [UInt8.toNat_ofNat']
        omega
      have hlast : (UInt8.ofNat number).toNat < 128 := by omega
      have hspells : Spells 1 [UInt8.ofNat number] (UInt8.ofNat number).toNat := .last hlast
      rw [hbyte] at hspells
      unfold encode
      rwa [if_pos (by omega)]
  | succ places ih =>
      unfold encode
      by_cases hs : number < 128
      · have hbyte : (UInt8.ofNat number).toNat = number := by
          rw [UInt8.toNat_ofNat']
          omega
        have hspells : Spells (places + 2) [UInt8.ofNat number] (UInt8.ofNat number).toNat :=
          .last (by omega)
        rw [hbyte] at hspells
        rwa [if_pos hs]
      · have hbyte : (UInt8.ofNat (number % 128 + 128)).toNat = number % 128 + 128 := by
          rw [UInt8.toNat_ofNat']
          omega
        have hpower : number < Nat.pow 128 (places + 1) * 128 := h
        have hhigh : number / 128 < Nat.pow 128 (places + 1) := by omega
        have hmore : 128 ≤ (UInt8.ofNat (number % 128 + 128)).toNat := by omega
        have hspells := Spells.more hmore (ih hhigh)
        rw [hbyte, Nat.add_sub_cancel, Nat.mod_add_div] at hspells
        rwa [if_neg hs]

-- One of the ways to write a number.
structure Spelling (number : Nat) where
  bytes : Bytes
  spells : Spells 10 bytes number
  fits : number < sizeLimit

namespace Spelling

variable {number : Nat}

theorem read (spelling : Spelling number) (rest : Bytes) :
    Varint.read (spelling.bytes ++ rest) = .ok (number, rest) := by
  have hfits : number >>> (7 * 9) < 2 := by
    have := spelling.fits
    rw [sizeLimit] at this
    rw [Nat.shiftRight_eq_div_pow]
    omega
  simp only [Varint.read, decode?_of_spells spelling.spells hfits]

theorem ne_nil (spelling : Spelling number) : spelling.bytes ≠ [] := by
  intro h
  have hspells := spelling.spells
  rw [h] at hspells
  cases hspells

-- The shortest one is what is written.
def shortest (number : Nat) (h : number < sizeLimit) : Spelling number where
  bytes := write number
  spells := by
    have hplaces : sizeLimit ≤ Nat.pow 128 10 := by decide
    exact spells_encode (Nat.lt_of_lt_of_le h hplaces)
  fits := h

end Spelling

end Varint

-- One of the ways to write the key of a field.
structure Key.Spelling (key : Key) where
  code : Varint.Spelling key.code
  isTag : IsTag key.tag

namespace Key.Spelling

variable {key : Key}

def bytes (spelling : Spelling key) : Bytes := spelling.code.bytes

theorem read (spelling : Spelling key) (rest : Bytes) :
    Key.read (spelling.bytes ++ rest) = .ok (key, rest) := by
  simp only [Key.read, bytes, spelling.code.read, ok_bind, ofCode_code key spelling.isTag,
    pure_eq_ok]

def shortest (key : Key) (h : IsTag key.tag) : Spelling key where
  code := .shortest key.code <| by
    have hcode := key.type.code_lt
    have htop := h.2
    rw [Key.code, sizeLimit]
    omega
  isTag := h

end Key.Spelling

-- A field on the wire, whatever a record makes of it. A group holds fields up to the key that ends
-- it, which has its tag.
inductive Foreign
  | varint (tag : Nat) (key : Key.Spelling ⟨tag, .varint⟩) (number : Nat)
      (value : Varint.Spelling number)
  | fixed64 (tag : Nat) (key : Key.Spelling ⟨tag, .fixed64⟩) (value : Bytes)
      (hlength : value.length = 8)
  | fixed32 (tag : Nat) (key : Key.Spelling ⟨tag, .fixed32⟩) (value : Bytes)
      (hlength : value.length = 4)
  | delimited (tag : Nat) (key : Key.Spelling ⟨tag, .delimited⟩) (value : Bytes)
      (length : Varint.Spelling value.length)
  | group (tag : Nat) (start : Key.Spelling ⟨tag, .startGroup⟩) (fields : List Foreign)
      (stop : Key.Spelling ⟨tag, .endGroup⟩)

namespace Foreign

def key : Foreign → Key
  | varint tag _ _ _ => ⟨tag, .varint⟩
  | fixed64 tag _ _ _ => ⟨tag, .fixed64⟩
  | fixed32 tag _ _ _ => ⟨tag, .fixed32⟩
  | delimited tag _ _ _ => ⟨tag, .delimited⟩
  | group tag _ _ _ => ⟨tag, .startGroup⟩

def spelling : (field : Foreign) → field.key.Spelling
  | varint _ key _ _ => key
  | fixed64 _ key _ _ => key
  | fixed32 _ key _ _ => key
  | delimited _ key _ _ => key
  | group _ start _ _ => start

mutual

-- The bytes behind the key.
def payload : Foreign → Bytes
  | varint _ _ _ value => value.bytes
  | fixed64 _ _ value _ => value
  | fixed32 _ _ value _ => value
  | delimited _ _ value length => length.bytes ++ value
  | group _ _ fields stop => content fields ++ stop.bytes

def content : List Foreign → Bytes
  | [] => []
  | field :: fields => field.spelling.bytes ++ field.payload ++ content fields

end

def bytes (field : Foreign) : Bytes := field.spelling.bytes ++ field.payload

mutual

-- How many groups lie in each other, from the field itself on.
def groups : Foreign → Nat
  | group _ _ fields _ => groupsOf fields + 1
  | _ => 0

def groupsOf : List Foreign → Nat
  | [] => 0
  | field :: fields => max field.groups (groupsOf fields)

end

mutual

-- How many fields lie in each other. A value costs a level as a group does.
def levels : Foreign → Nat
  | group _ _ fields _ => levelsOf fields + 1
  | _ => 1

def levelsOf : List Foreign → Nat
  | [] => 0
  | field :: fields => max field.levels (levelsOf fields)

end

-- The field at the bottom of groups that lie in each other.
def nested (tag : Nat) (start : Key.Spelling ⟨tag, .startGroup⟩)
    (stop : Key.Spelling ⟨tag, .endGroup⟩) (field : Foreign) : Nat → Foreign
  | 0 => field
  | depth + 1 => group tag start [nested tag start stop field depth] stop

theorem groups_nested {tag : Nat} {start : Key.Spelling ⟨tag, .startGroup⟩}
    {stop : Key.Spelling ⟨tag, .endGroup⟩} (field : Foreign) (depth : Nat) :
    (nested tag start stop field depth).groups = field.groups + depth := by
  induction depth with
  | zero => rfl
  | succ depth ih => simp only [nested, groups, groupsOf, ih, Nat.max_zero, Nat.add_assoc]

theorem levels_nested {tag : Nat} {start : Key.Spelling ⟨tag, .startGroup⟩}
    {stop : Key.Spelling ⟨tag, .endGroup⟩} (field : Foreign) (depth : Nat) :
    (nested tag start stop field depth).levels = field.levels + depth := by
  induction depth with
  | zero => rfl
  | succ depth ih => simp only [nested, levels, levelsOf, ih, Nat.max_zero, Nat.add_assoc]

theorem bytes_ne_nil (field : Foreign) : field.bytes ≠ [] :=
  List.append_ne_nil_of_left_ne_nil field.spelling.code.ne_nil _

theorem length_le_content (fields : List Foreign) : fields.length ≤ (content fields).length := by
  induction fields with
  | nil => exact Nat.zero_le _
  | cons field fields ih =>
      have hkey := List.length_pos_iff.mpr field.spelling.code.ne_nil
      have hcontent : content (field :: fields) =
          field.spelling.code.bytes ++ field.payload ++ content fields := rfl
      rw [hcontent]
      simp only [List.length_cons, List.length_append]
      omega

theorem key_type_ne_endGroup (field : Foreign) : field.key.type ≠ .endGroup := by
  cases field <;> exact nofun

theorem dropExact_append {count : Nat} {bytes : Bytes} (h : bytes.length = count) (rest : Bytes) :
    dropExact count (bytes ++ rest) = .ok rest := by
  have hlong : ¬ (bytes ++ rest).length < count := by
    rw [List.length_append]
    omega
  simp only [dropExact, hlong, if_false, List.drop_left' h]

mutual

-- A field is skipped as a whole or, if a field in it lies too deep, not at all.
theorem skip_payload_iff (field : Foreign) {limit : Nat} {rest behind : Bytes} :
    skip limit field.key (field.payload ++ rest) = .ok behind ↔
      field.levels ≤ limit ∧ behind = rest := by
  cases limit with
  | zero =>
      constructor
      · exact nofun
      · intro h
        cases field <;> simp [levels] at h
  | succ limit =>
      cases field with
      | varint tag key number value =>
          simp [skip, Foreign.key, payload, value.read, levels, eq_comm]
      | fixed64 tag key value hlength =>
          simp [skip, Foreign.key, payload, dropExact_append hlength, levels, eq_comm]
      | fixed32 tag key value hlength =>
          simp [skip, Foreign.key, payload, dropExact_append hlength, levels, eq_comm]
      | delimited tag key value length =>
          simp [skip, Foreign.key, payload, List.append_assoc, length.read,
            dropExact_append (rfl : value.length = value.length), levels, eq_comm]
      | group tag start fields stop =>
          have hcount : fields.length < (content fields ++ (stop.bytes ++ rest)).length + 1 := by
            have := length_le_content fields
            rw [List.length_append]
            omega
          simp only [skip, Foreign.key, payload, List.append_assoc, levels]
          rw [skipGroup_content_iff fields stop hcount]
          simp only [Nat.add_le_add_iff_right]

-- The fields of a group up to its end.
theorem skipGroup_content_iff (fields : List Foreign) {limit tag count : Nat}
    (stop : Key.Spelling ⟨tag, .endGroup⟩) {rest behind : Bytes} (hcount : fields.length < count) :
    skipGroup (skip limit) tag count (content fields ++ (stop.bytes ++ rest)) = .ok behind ↔
      levelsOf fields ≤ limit ∧ behind = rest := by
  obtain ⟨count, rfl⟩ : ∃ n, count = n + 1 := ⟨count - 1, by omega⟩
  cases fields with
  | nil =>
      simp [content, skipGroup, stop.read, levelsOf, eq_comm]
  | cons field fields =>
      have hshort : fields.length < count := by simpa using hcount
      have hkey := field.spelling.read (field.payload ++ (content fields ++ (stop.bytes ++ rest)))
      simp only [content, List.append_assoc, skipGroup, hkey, ok_bind, field.key_type_ne_endGroup,
        if_false, bind_eq_ok, skip_payload_iff field]
      constructor
      · rintro ⟨_, ⟨hfield, rfl⟩, hrest⟩
        obtain ⟨hfields, rfl⟩ := (skipGroup_content_iff fields stop hshort).mp hrest
        exact ⟨Nat.max_le.mpr ⟨hfield, hfields⟩, rfl⟩
      · rintro ⟨hlevels, rfl⟩
        obtain ⟨hfield, hfields⟩ := Nat.max_le.mp hlevels
        exact ⟨_, ⟨hfield, rfl⟩, (skipGroup_content_iff fields stop hshort).mpr ⟨hfields, rfl⟩⟩

end

end Foreign

end TableHistory.Wire
