import TableHistory.Proofs.Commit.Metadata
import TableHistory.Proofs.Grouped

namespace TableHistory.Partition

variable {ν μ : Type}

theorem eq_map_some {partitions : List Partition} (h : none ∉ partitions) :
    partitions = (partitions.filterMap id).map some := by
  induction partitions with
  | nil => rfl
  | cons partition partitions ih =>
      cases partition with
      | none => exact absurd List.mem_cons_self h
      | some path =>
          have hrest := ih fun hmem => h (List.mem_cons_of_mem _ hmem)
          exact congrArg (some path :: ·) hrest

-- The null partition first, then the paths in their order.
theorem eq_null_append {partitions : List Partition}
    (h : partitions.Pairwise fun a b => compare a b = .lt) :
    partitions =
      (if none ∈ partitions then [none] else []) ++ (partitions.filterMap id).map some := by
  cases partitions with
  | nil => rfl
  | cons first rest =>
      have hrest : none ∉ rest := by
        intro hmem
        have hless := (List.pairwise_cons.mp h).1 none hmem
        cases first <;> cases hless
      cases first with
      | none =>
          rw [if_pos List.mem_cons_self]
          exact congrArg (none :: ·) (eq_map_some hrest)
      | some path =>
          have hnone : none ∉ some path :: rest := by simpa using hrest
          rw [if_neg hnone]
          exact eq_map_some hnone

-- The paths among the keys of a map.
def paths (map : OrderedMap Partition ν) : List String := map.keys.filterMap id

theorem keys_eq (map : OrderedMap Partition ν) :
    map.keys = (if none ∈ map.keys then [none] else []) ++ (paths map).map some :=
  eq_null_append (List.pairwise_map.mpr map.ascending)

theorem mem_paths {map : OrderedMap Partition ν} {path : String} :
    path ∈ paths map ↔ some path ∈ map.keys := by
  simp [paths]

theorem keys_pathsOnly (convert : ν → μ) (map : OrderedMap Partition ν) :
    (pathsOnly convert map).keys = paths map := by
  simp only [OrderedMap.keys, pathsOnly, paths, List.map_filterMap, List.filterMap_map,
    Option.map_map]
  congr 1
  funext entry
  exact Option.map_id'

theorem paths_ascending (map : OrderedMap Partition ν) :
    (paths map).Pairwise fun a b => compare a b = .lt := by
  rw [← keys_pathsOnly id]
  exact List.pairwise_map.mpr (pathsOnly id map).ascending

theorem size_eq (map : OrderedMap Partition ν) :
    map.size = (paths map).length + if none ∈ map.keys then 1 else 0 := by
  have hkeys := congrArg List.length (keys_eq map)
  have hsize : map.keys.length = map.size := List.length_map _
  rw [List.length_append, List.length_map, hsize] at hkeys
  rw [hkeys, Nat.add_comm]
  split <;> rfl

theorem size_pathsOnly (convert : ν → μ) (map : OrderedMap Partition ν) :
    (pathsOnly convert map).size = (paths map).length := by
  rw [← keys_pathsOnly convert]
  exact (List.length_map _).symm

theorem find?_withoutNull (map : OrderedMap Partition ν) (partition : Partition) :
    (withoutNull map).find? partition =
      if partition.isSome then map.find? partition else none := by
  apply Option.ext
  intro value
  rw [OrderedMap.find?_eq_some_iff, withoutNull, List.mem_filter]
  cases partition with
  | none => simp
  | some path => simp [OrderedMap.find?_eq_some_iff]

-- The values of the null partition come first, then those of each path.
theorem values_grouped (items : List (Partition × ν)) :
    (OrderedMap.grouped items).values.flatten = valuesOf none items ++
      (paths (.grouped items)).flatMap fun path => valuesOf (some path) items := by
  have hnull : (if none ∈ (OrderedMap.grouped items).keys then [none] else []).flatMap
      (fun partition => valuesOf partition items) = valuesOf none items := by
    by_cases hnone : none ∈ (OrderedMap.grouped items).keys
    · rw [if_pos hnone, List.flatMap_singleton]
    · have hempty : valuesOf none items = [] := by
        rw [OrderedMap.mem_keys_grouped, ← valuesOf_ne_nil_iff] at hnone
        exact not_not.mp hnone
      rw [if_neg hnone, hempty]
      rfl
  rw [OrderedMap.values_grouped, ← List.flatMap_def, keys_eq, List.flatMap_append, hnull,
    List.flatMap_map]

-- As if the values of the null partition had not been there.
theorem withoutNull_grouped (items : List (Partition × ν)) :
    withoutNull (.grouped items) = .grouped (items.filter fun item => item.1.isSome) := by
  apply OrderedMap.ext_find?
  intro partition
  rw [find?_withoutNull, OrderedMap.find?_grouped, OrderedMap.find?_grouped]
  cases partition with
  | none =>
      have hnone : valuesOf none (items.filter fun item => item.1.isSome) = [] := by
        simp [valuesOf, List.filter_filter]
      rw [hnone]
      rfl
  | some path =>
      rw [valuesOf_filter Option.isSome rfl]
      rfl

end TableHistory.Partition
