import Mathlib.Data.List.Nodup
import TableHistory.OrderedMap

namespace TableHistory.OrderedMap

variable {κ ν μ : Type} [Ord κ]

-- The same keys with other values.
def mapValues (change : ν → μ) (map : OrderedMap κ ν) : OrderedMap κ μ where
  entries := map.entries.map fun entry => (entry.1, change entry.2)
  ascending := List.pairwise_map.mpr map.ascending

@[simp] theorem mapValues_id (map : OrderedMap κ ν) : map.mapValues id = map :=
  ext (by simp [mapValues])

-- The first entries of a map.
def take (count : Nat) (map : OrderedMap κ ν) : OrderedMap κ ν where
  entries := map.entries.take count
  ascending := map.ascending.take

variable [Std.TransOrd κ] [Std.LawfulEqOrd κ]

-- A key behind all others comes last.
omit [Std.LawfulEqOrd κ] in
theorem insertEntry_of_lt (key : κ) (value : ν) (entries : List (κ × ν))
    (h : ∀ entry ∈ entries, compare entry.1 key = .lt) :
    insertEntry key value entries = entries ++ [(key, value)] := by
  induction entries with
  | nil => rfl
  | cons first rest ih =>
      have hgt : compare key first.1 = .gt :=
        Std.OrientedCmp.gt_of_lt (h first List.mem_cons_self)
      have hrest := ih fun entry he => h entry (List.mem_cons_of_mem _ he)
      simp only [insertEntry, hgt, hrest, List.cons_append]

-- Entries that are inserted in ascending order stand behind each other.
theorem foldl_insert_entries (map : OrderedMap κ ν) (entries : List (κ × ν))
    (h : (map.entries ++ entries).Pairwise fun a b => compare a.1 b.1 = .lt) :
    (entries.foldl (fun map entry => map.insert entry.1 entry.2) map).entries =
      map.entries ++ entries := by
  induction entries generalizing map with
  | nil => rw [List.foldl_nil, List.append_nil]
  | cons first rest ih =>
      have hlast : (map.insert first.1 first.2).entries = map.entries ++ [first] := by
        apply insertEntry_of_lt
        intro entry he
        exact (List.pairwise_append.mp h).2.2 entry he first List.mem_cons_self
      have hassoc : map.entries ++ [first] ++ rest = map.entries ++ first :: rest := by
        rw [List.append_assoc, List.singleton_append]
      have hinserted : ((map.insert first.1 first.2).entries ++ rest).Pairwise
          fun a b => compare a.1 b.1 = .lt := by
        rw [hlast, hassoc]
        exact h
      rw [List.foldl_cons, ih _ hinserted, hlast, hassoc]

theorem ofList_entries (map : OrderedMap κ ν) : ofList map.entries = map :=
  ext (foldl_insert_entries empty map.entries map.ascending)

omit [Std.LawfulEqOrd κ] in
theorem ne_of_compare_lt {left right : κ} (h : compare left right = .lt) : left ≠ right := by
  rintro rfl
  rw [Std.compare_self] at h
  cases h

omit [Std.LawfulEqOrd κ] in
theorem nodup_keys (map : OrderedMap κ ν) : map.keys.Nodup :=
  List.pairwise_map.mpr (map.ascending.imp fun h => ne_of_compare_lt h)

-- Maps with the same entries are equal.
omit [Std.LawfulEqOrd κ] in
theorem ext_mem {left right : OrderedMap κ ν}
    (h : ∀ entry, entry ∈ left.entries ↔ entry ∈ right.entries) : left = right := by
  apply ext
  have hperm := (List.perm_ext_iff_of_nodup (List.Nodup.of_map _ left.nodup_keys)
    (List.Nodup.of_map _ right.nodup_keys)).mpr h
  refine hperm.eq_of_pairwise ?_ left.ascending right.ascending
  intro entry other _ _ hlt hgt
  exact absurd hgt (Std.OrientedCmp.not_lt_of_lt hlt)

theorem mem_insertEntry_iff {key : κ} {value : ν} {entries : List (κ × ν)} {entry : κ × ν}
    (h : entries.Pairwise fun a b => compare a.1 b.1 = .lt) :
    entry ∈ insertEntry key value entries ↔
      entry = (key, value) ∨ entry ∈ entries ∧ entry.1 ≠ key := by
  induction entries with
  | nil => simp [insertEntry]
  | cons first rest ih =>
      obtain ⟨hfirst, hrest⟩ := List.pairwise_cons.mp h
      unfold insertEntry
      split
      · rename_i hlt
        -- The new key is below all that are there.
        have hold : ∀ other ∈ first :: rest, other.1 ≠ key := by
          intro other ho
          rcases List.mem_cons.mp ho with rfl | ho
          · exact (ne_of_compare_lt hlt).symm
          · exact (ne_of_compare_lt (Std.TransCmp.lt_trans hlt (hfirst other ho))).symm
        rw [List.mem_cons]
        exact or_congr_right ⟨fun hm => ⟨hm, hold entry hm⟩, And.left⟩
      · rename_i heq
        cases Std.LawfulEqOrd.eq_of_compare heq
        have hold : ∀ other ∈ rest, other.1 ≠ first.1 :=
          fun other ho => (ne_of_compare_lt (hfirst other ho)).symm
        rw [List.mem_cons, List.mem_cons]
        constructor
        · exact Or.imp_right fun hm => ⟨.inr hm, hold entry hm⟩
        · rintro (rfl | ⟨rfl | hm, hne⟩)
          · exact .inl rfl
          · exact absurd rfl hne
          · exact .inr hm
      · rename_i hgt
        have hne : first.1 ≠ key := ne_of_compare_lt (Std.OrientedCmp.lt_of_gt hgt)
        rw [List.mem_cons, List.mem_cons, ih hrest]
        constructor
        · rintro (rfl | rfl | ⟨hm, hkey⟩)
          · exact .inr ⟨.inl rfl, hne⟩
          · exact .inl rfl
          · exact .inr ⟨.inr hm, hkey⟩
        · rintro (rfl | ⟨rfl | hm, hkey⟩)
          · exact .inr (.inl rfl)
          · exact .inl rfl
          · exact .inr (.inr ⟨hm, hkey⟩)

theorem mem_insert {map : OrderedMap κ ν} {key : κ} {value : ν} {entry : κ × ν} :
    entry ∈ (map.insert key value).entries ↔
      entry = (key, value) ∨ entry ∈ map.entries ∧ entry.1 ≠ key :=
  mem_insertEntry_iff map.ascending

theorem insert_comm (map : OrderedMap κ ν) {left right : κ} (hne : left ≠ right) (value other : ν) :
    (map.insert left value).insert right other = (map.insert right other).insert left value := by
  apply ext_mem
  intro entry
  simp only [mem_insert]
  constructor
  · rintro (rfl | ⟨rfl | ⟨hm, hleft⟩, hright⟩)
    · exact .inr ⟨.inl rfl, hne.symm⟩
    · exact .inl rfl
    · exact .inr ⟨.inr ⟨hm, hright⟩, hleft⟩
  · rintro (rfl | ⟨rfl | ⟨hm, hright⟩, hleft⟩)
    · exact .inr ⟨.inl rfl, hne⟩
    · exact .inl rfl
    · exact .inr ⟨.inr ⟨hm, hleft⟩, hright⟩

-- Entries under different keys may be inserted in any order.
theorem foldl_insert_perm {entries others : List (κ × ν)} (hperm : entries.Perm others)
    (hkeys : (entries.map Prod.fst).Nodup) (map : OrderedMap κ ν) :
    entries.foldl (fun map entry => map.insert entry.1 entry.2) map =
      others.foldl (fun map entry => map.insert entry.1 entry.2) map := by
  apply hperm.foldl_eq'
  intro entry he other ho map
  by_cases hsame : entry.1 = other.1
  · rw [List.inj_on_of_nodup_map hkeys he ho hsame]
  · exact insert_comm map hsame entry.2 other.2

end TableHistory.OrderedMap
