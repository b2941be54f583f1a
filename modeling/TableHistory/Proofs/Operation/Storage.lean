import Mathlib.Data.List.Dedup
import TableHistory.Entry.Build
import TableHistory.Proofs.Writes

namespace TableHistory

theorem Instant.key_eq_iff {left right : Instant} :
    left.key = right.key ↔ left.requestedTime = right.requestedTime ∧ left.action = right.action ∧
      left.state = right.state := by
  simp [Instant.key]

-- A record depends on the reader by the body of its own instant only.
theorem Entry.ofInstant_congr {reader other : InstantReader} {instant : Instant}
    (h : reader instant = other instant) (config : ArchiveConfig) :
    ofInstant config reader instant = ofInstant config other instant := by
  unfold ofInstant
  rw [h]

namespace InstantStore

variable {store : InstantStore} {key : InstantKey} {instant left right : Instant} {body : Bytes}

def keys (store : InstantStore) : List InstantKey := store.cells.map Prod.fst

theorem find?_eq_none_iff : store.find? key = none ↔ key ∉ store.keys := by
  simp only [find?, keys, Option.map_eq_none_iff, List.find?_eq_none, List.mem_map, not_exists,
    not_and, decide_eq_true_eq]

theorem find?_insert (store : InstantStore) (instant : Instant) (body : Bytes) (key : InstantKey) :
    (store.insert instant body).find? key =
      if instant.key = key then some body else store.find? key := by
  unfold find? insert
  by_cases h : instant.key = key
  · simp [h]
  · -- The cells that are left out for the new one have its key.
    have hleft : ∀ cell : InstantKey × Bytes,
        (cell.1 ≠ instant.key ∧ cell.1 = key) ↔ cell.1 = key := by
      intro cell
      constructor
      · exact And.right
      · rintro rfl
        exact ⟨Ne.symm h, rfl⟩
    simp only [List.find?_cons, h, decide_false, if_false, List.find?_filter, decide_eq_true_eq,
      hleft]

-- Two bodies of different places take their cells in either order.
theorem insert_comm (store : InstantStore) (h : left.key ≠ right.key) (body other : Bytes) :
    ((store.insert left body).insert right other).cells.Perm
      ((store.insert right other).insert left body).cells := by
  have hcells : ∀ {first second : Instant} (body other : Bytes), first.key ≠ second.key →
      ((store.insert first body).insert second other).cells = (second.key, other) ::
        (first.key, body) :: store.cells.filter fun cell =>
          cell.1 ≠ second.key ∧ cell.1 ≠ first.key := by
    intro first second body other hne
    simp [insert, hne, List.filter_filter]
  rw [hcells body other h, hcells other body h.symm]
  simp only [and_comm]
  exact List.Perm.swap _ _ _

theorem read_insert_comm (store : InstantStore) (h : left.key ≠ right.key) (body other : Bytes) :
    ((store.insert left body).insert right other).read =
      ((store.insert right other).insert left body).read := by
  funext instant
  have hfind := find_swap (fun store : InstantStore => store.find? instant.key)
    (fun store (write : Instant × Bytes) => find?_insert store write.1 write.2 instant.key) store
    (left, body) (right, other) fun hleft hright => h (hleft.trans hright.symm)
  unfold read
  rw [hfind]

-- The store after bodies were recorded for instants one after the other.
def recorded (writes : List (Instant × Bytes)) : InstantStore :=
  writes.foldl (fun store write => store.insert write.1 write.2) empty

-- What was recorded for an instant. Completion times do not count.
def writesFor (instant : Instant) (writes : List (Instant × Bytes)) : List (Instant × Bytes) :=
  writes.filter fun write => write.1.requestedTime = instant.requestedTime ∧
    write.1.action = instant.action ∧ write.1.state = instant.state

variable {writes : List (Instant × Bytes)}

theorem writesFor_eq (instant : Instant) (writes : List (Instant × Bytes)) :
    writesFor instant writes = writes.filter fun write => write.1.key = instant.key := by
  simp only [writesFor, Instant.key_eq_iff]

theorem find?_recorded (writes : List (Instant × Bytes)) (key : InstantKey) :
    (recorded writes).find? key =
      (writes.filter fun write => write.1.key = key).getLast?.map Prod.snd := by
  have hlast := find_foldl (fun store : InstantStore => store.find? key)
    (fun store write => find?_insert store write.1 write.2 key) empty writes
  exact hlast.trans Option.or_none

theorem mem_keys_recorded :
    key ∈ (recorded writes).keys ↔ key ∈ writes.map fun write => write.1.key := by
  rw [← not_iff_not, ← find?_eq_none_iff, find?_recorded]
  simp

-- There is one cell for each key.
theorem size_recorded (writes : List (Instant × Bytes)) :
    (recorded writes).size = (writes.map fun write => write.1.key).dedup.length := by
  have hperm : (recorded writes).keys.Perm (writes.map fun write => write.1.key).dedup := by
    apply (List.perm_ext_iff_of_nodup (recorded writes).distinct (List.nodup_dedup _)).mpr
    intro key
    rw [List.mem_dedup]
    exact mem_keys_recorded
  rw [← hperm.length_eq]
  exact (List.length_map _).symm

theorem isEmpty_recorded : (recorded writes).isEmpty = true ↔ writes = [] := by
  have hsize : (recorded writes).isEmpty = true ↔ (recorded writes).size = 0 :=
    List.isEmpty_iff_length_eq_zero
  rw [hsize, size_recorded, List.length_eq_zero_iff, List.dedup_eq_nil, List.map_eq_nil_iff]

theorem read_recorded (writes : List (Instant × Bytes)) (instant : Instant) :
    (recorded writes).read instant =
      match (writesFor instant writes).getLast? with
      | some write => .ok write.2
      | none => .error (.notRecorded instant) := by
  unfold read
  rw [find?_recorded, ← writesFor_eq]
  cases (writesFor instant writes).getLast? with
  | none => rfl
  | some write => rfl

-- The store keeps the last body for each operation, action and state, and says which instant
-- nothing was recorded for. It has as many bodies as there are such places. Bodies for others may
-- be recorded before or after, so a record depends on the order of the writes for its own instant
-- only.
theorem read_last_recorded (writes : List (Instant × Bytes)) :
    (∀ instant,
      (∀ body, (recorded writes).read instant = .ok body ↔
        (writesFor instant writes).getLast?.map Prod.snd = some body) ∧
      (∀ fault, (recorded writes).read instant = .error fault ↔
        fault = .notRecorded instant ∧ writesFor instant writes = []) ∧
      ∀ config others, writesFor instant others = writesFor instant writes →
        Entry.ofInstant config (recorded others).read instant =
          Entry.ofInstant config (recorded writes).read instant) ∧
    (recorded writes).size = (writes.map fun write => write.1.key).dedup.length ∧
    ((recorded writes).isEmpty = true ↔ writes = []) ∧
    ∀ (store : InstantStore) left right body other, left.key ≠ right.key →
      ((store.insert left body).insert right other).cells.Perm
        ((store.insert right other).insert left body).cells ∧
      ((store.insert left body).insert right other).read =
        ((store.insert right other).insert left body).read := by
  refine ⟨?_, size_recorded writes, isEmpty_recorded, ?_⟩
  · intro instant
    refine ⟨?_, ?_, ?_⟩
    · intro body
      rw [read_recorded]
      cases (writesFor instant writes).getLast? with
      | none => simp
      | some write => simp
    · intro fault
      rw [read_recorded, ← List.getLast?_eq_none_iff]
      cases (writesFor instant writes).getLast? with
      | none => simp [eq_comm]
      | some write => simp
    · intro config others hsame
      apply Entry.ofInstant_congr
      rw [read_recorded, read_recorded, hsame]
  · intro store left right body other hne
    exact ⟨insert_comm store hne body other, read_insert_comm store hne body other⟩

def commitAt (state : State) (completionTime : Option String) : Instant :=
  ⟨"1", .commit, state, completionTime⟩

-- A completed body that is emptied under another completion time, and an inflight one.
def emptied : List (Instant × Bytes) :=
  [(commitAt .completed (some "2"), [1]), (commitAt .inflight none, [7]),
    (commitAt .completed (some "3"), [])]

-- The same with the inflight body recorded first.
def reordered : List (Instant × Bytes) :=
  [(commitAt .inflight none, [7]), (commitAt .completed (some "2"), [1]),
    (commitAt .completed (some "3"), [])]

theorem read_last_recorded_emptied :
    (recorded emptied).read (commitAt .completed none) = .ok [] ∧
      (recorded emptied).read (commitAt .requested none) =
        .error (.notRecorded (commitAt .requested none)) ∧
      (∀ config, Entry.ofInstant config (recorded reordered).read (commitAt .completed none) =
        Entry.ofInstant config (recorded emptied).read (commitAt .completed none)) ∧
      (recorded emptied).size = 2 ∧
      ((empty.insert (commitAt .inflight none) [7]).insert (commitAt .completed none) []).read =
        ((empty.insert (commitAt .completed none) []).insert
          (commitAt .inflight none) [7]).read := by
  obtain ⟨hread, hsize, _, hcomm⟩ := read_last_recorded emptied
  refine ⟨?_, ?_, ?_, hsize, ?_⟩
  · exact ((hread (commitAt .completed none)).1 []).mpr rfl
  · exact ((hread (commitAt .requested none)).2.1 _).mpr ⟨rfl, rfl⟩
  · intro config
    exact (hread (commitAt .completed none)).2.2 config reordered rfl
  · exact (hcomm empty (commitAt .inflight none) (commitAt .completed none) [7] [] (by decide)).2

end InstantStore

end TableHistory
