import Mathlib.Data.List.Induction
import TableHistory.Proofs.OrderedMap
import TableHistory.Proofs.Writes

namespace TableHistory.OrderedMap

variable {κ ν : Type} [Ord κ] [Std.TransOrd κ] [Std.LawfulEqOrd κ] {map left right : OrderedMap κ ν}
  {key : κ} {value : ν}

theorem find?_eq_some_iff : map.find? key = some value ↔ (key, value) ∈ map.entries := by
  have hkey : ∀ entry : κ × ν, (compare key entry.1 == .eq) = true ↔ entry.1 = key := by
    intro entry
    rw [beq_iff_eq, Std.LawfulEqOrd.compare_eq_iff_eq, eq_comm]
  unfold find?
  rw [Option.map_eq_some_iff]
  constructor
  · rintro ⟨entry, hfind, rfl⟩
    have hfound := List.find?_some hfind
    rw [← (hkey entry).mp hfound]
    exact List.mem_of_find?_eq_some hfind
  · intro hmem
    have hthere : (map.entries.find? fun entry => compare key entry.1 == .eq).isSome :=
      List.find?_isSome.mpr ⟨(key, value), hmem, (hkey (key, value)).mpr rfl⟩
    obtain ⟨entry, hfind⟩ := Option.isSome_iff_exists.mp hthere
    have hfound := List.find?_some hfind
    have hsame : entry = (key, value) :=
      List.inj_on_of_nodup_map map.nodup_keys (List.mem_of_find?_eq_some hfind) hmem
        ((hkey entry).mp hfound)
    exact ⟨entry, hfind, congrArg Prod.snd hsame⟩

theorem find?_isSome_iff : (map.find? key).isSome ↔ key ∈ map.keys := by
  rw [Option.isSome_iff_exists]
  simp [find?_eq_some_iff, keys]

theorem ext_find? (h : ∀ key, left.find? key = right.find? key) : left = right := by
  apply ext_mem
  rintro ⟨key, value⟩
  rw [← find?_eq_some_iff, ← find?_eq_some_iff, h]

theorem values_eq_of_find? {found : κ → ν}
    (h : ∀ key ∈ map.keys, map.find? key = some (found key)) :
    map.values = map.keys.map found := by
  unfold values keys
  rw [List.map_map]
  apply List.map_congr_left
  rintro ⟨key, value⟩ hentry
  have hfound := h key (List.mem_map_of_mem hentry)
  rw [find?_eq_some_iff.mpr hentry] at hfound
  exact Option.some.inj hfound

variable [DecidableEq κ]

theorem find?_insert (map : OrderedMap κ ν) (key : κ) (value : ν) (other : κ) :
    (map.insert key value).find? other = if key = other then some value else map.find? other := by
  apply Option.ext
  intro found
  rw [find?_eq_some_iff, mem_insert, ← find?_eq_some_iff]
  by_cases h : key = other
  · subst h
    simp [eq_comm]
  · simp [h, Ne.symm h]

theorem find?_ofList (entries : List (κ × ν)) (key : κ) :
    (ofList entries).find? key =
      (entries.filter fun entry => entry.1 = key).getLast?.map Prod.snd := by
  have hlast := find_foldl (fun map : OrderedMap κ ν => map.find? key)
    (fun map entry => find?_insert map entry.1 entry.2 key) empty entries
  exact hlast.trans Option.or_none

end TableHistory.OrderedMap

namespace TableHistory

variable {κ ν : Type} [DecidableEq κ]

-- The values of one key, in their order.
def valuesOf (key : κ) (items : List (κ × ν)) : List ν :=
  (items.filter fun item => item.1 = key).map Prod.snd

theorem valuesOf_concat (key : κ) (items : List (κ × ν)) (item : κ × ν) :
    valuesOf key (items ++ [item]) =
      valuesOf key items ++ if item.1 = key then [item.2] else [] := by
  unfold valuesOf
  rw [List.filter_append, List.map_append]
  by_cases h : item.1 = key
  · simp [h]
  · simp [h]

theorem valuesOf_ne_nil_iff {key : κ} {items : List (κ × ν)} :
    valuesOf key items ≠ [] ↔ key ∈ items.map Prod.fst := by
  simp [valuesOf]

theorem valuesOf_filter {key : κ} (keep : κ → Bool) (h : keep key = true) (items : List (κ × ν)) :
    valuesOf key (items.filter fun item => keep item.1) = valuesOf key items := by
  unfold valuesOf
  rw [List.filter_filter]
  congr 1
  apply List.filter_congr
  intro item _
  by_cases hkey : item.1 = key
  · simp [hkey, h]
  · simp [hkey]

-- Key by key, all values come once.
theorem flatMap_valuesOf_perm {keys : List κ} (hkeys : keys.Nodup) {items : List (κ × ν)}
    (h : ∀ item ∈ items, item.1 ∈ keys) :
    (keys.flatMap fun key => valuesOf key items).Perm (items.map Prod.snd) := by
  induction keys generalizing items with
  | nil =>
      have hitems : items = [] := List.eq_nil_iff_forall_not_mem.mpr fun item hi =>
        List.not_mem_nil (h item hi)
      subst hitems
      exact .refl _
  | cons key rest ih =>
      obtain ⟨hkey, hrest⟩ := List.nodup_cons.mp hkeys
      let others := items.filter fun item => !decide (item.1 = key)
      have hothers : (rest.flatMap fun key => valuesOf key items).Perm (others.map Prod.snd) := by
        have hsame : (rest.flatMap fun key => valuesOf key items) =
            rest.flatMap fun key => valuesOf key others := by
          apply List.flatMap_congr
          intro other hother
          have hne : other ≠ key := by
            rintro rfl
            exact hkey hother
          exact (valuesOf_filter (fun other => !decide (other = key)) (by simpa) items).symm
        rw [hsame]
        apply ih hrest
        intro item hi
        obtain ⟨hitem, hne⟩ := List.mem_filter.mp hi
        rcases List.mem_cons.mp (h item hitem) with heq | hmem
        · simp [heq] at hne
        · exact hmem
      have hsplit : (valuesOf key items ++ others.map Prod.snd).Perm (items.map Prod.snd) := by
        unfold valuesOf
        rw [← List.map_append]
        exact (List.filter_append_perm _ items).map Prod.snd
      exact (hothers.append_left _).trans hsplit

namespace OrderedMap

variable [Ord κ] [Std.TransOrd κ] [Std.LawfulEqOrd κ]

-- Lists of values by key, to which the values are appended one after the other.
def grouped (items : List (κ × ν)) : OrderedMap κ (List ν) :=
  items.foldl (fun map item => map.update item.1 [] (· ++ [item.2])) empty

omit [DecidableEq κ] in
theorem grouped_concat (items : List (κ × ν)) (item : κ × ν) :
    grouped (items ++ [item]) = (grouped items).update item.1 [] (· ++ [item.2]) :=
  List.foldl_concat ..

-- A key has an entry as soon as it has a value.
theorem find?_grouped (items : List (κ × ν)) (key : κ) :
    (grouped items).find? key =
      if valuesOf key items = [] then none else some (valuesOf key items) := by
  induction items using List.reverseRecOn with
  | nil => rfl
  | append_singleton items item ih =>
      rw [grouped_concat, update, find?_insert, valuesOf_concat]
      by_cases h : item.1 = key
      · subst h
        rw [ih]
        by_cases hnone : valuesOf item.1 items = []
        · simp [hnone]
        · simp [hnone]
      · simp [h, ih]

theorem mem_keys_grouped {items : List (κ × ν)} {key : κ} :
    key ∈ (grouped items).keys ↔ key ∈ items.map Prod.fst := by
  rw [← find?_isSome_iff, find?_grouped, ← valuesOf_ne_nil_iff]
  by_cases hnone : valuesOf key items = []
  · simp [hnone]
  · simp [hnone]

theorem values_grouped (items : List (κ × ν)) :
    (grouped items).values = (grouped items).keys.map fun key => valuesOf key items := by
  apply values_eq_of_find?
  intro key hkey
  have hsome := valuesOf_ne_nil_iff.mpr (mem_keys_grouped.mp hkey)
  rw [find?_grouped, if_neg hsome]

theorem values_grouped_perm (items : List (κ × ν)) :
    (grouped items).values.flatten.Perm (items.map Prod.snd) := by
  rw [values_grouped, ← List.flatMap_def]
  apply flatMap_valuesOf_perm (nodup_keys _)
  intro item hitem
  exact mem_keys_grouped.mpr (List.mem_map_of_mem hitem)

end OrderedMap

end TableHistory
