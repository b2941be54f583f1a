import Mathlib.Data.List.Nodup
import Mathlib.Tactic.Choose
import TableHistory.Proofs.Operation.Loading

namespace TableHistory.LoadedOperation

variable {reader : InstantReader} {instants others : List Instant} {instant : Instant}
  {cause : StorageFault} {fault : ArchiveFault} {operation other : LoadedOperation}

-- Instants of one operation, in any order. It may complete as another action than the pending one.
structure IsOperation (instants : List Instant) : Prop where
  distinct : (instants.map Instant.state).Nodup
  requestedTime : ∀ first ∈ instants, ∀ second ∈ instants,
    first.requestedTime = second.requestedTime
  pending : ∀ first ∈ instants, ∀ second ∈ instants,
    first.state ≠ .completed → second.state ≠ .completed → first.action = second.action

-- The operation that instants and their bodies tell of. The pending action and the action stand
-- for each other where one of them is missing.
structure Tells (reader : InstantReader) (instants : List Instant)
    (operation : LoadedOperation) : Prop where
  instantTime : ∀ instant ∈ instants, operation.instantTime = instant.requestedTime
  pendingAction : ∀ instant ∈ instants, instant.state ≠ .completed →
    operation.pendingAction = instant.action
  onlyCompleted : (∀ instant ∈ instants, instant.state = .completed) →
    ∀ instant ∈ instants, operation.pendingAction = instant.action
  completed : ∀ instant ∈ instants, instant.state = .completed →
    operation.action = instant.action ∧ operation.completionTime = instant.completionTime
  notCompleted : (∀ instant ∈ instants, instant.state ≠ .completed) →
    operation.action = operation.pendingAction ∧ operation.completionTime = none
  body : ∀ instant ∈ instants, ∀ body, reader instant = .ok body →
    operation.body instant.state = kept body
  missing : ∀ state, (∀ instant ∈ instants, instant.state ≠ state) → operation.body state = none

theorem ext_body (hheading : operation.heading = other.heading)
    (hbody : ∀ state, operation.body state = other.body state) : operation = other := by
  obtain ⟨_, _, _, _, _, _, _⟩ := operation
  obtain ⟨_, _, _, _, _, _, _⟩ := other
  simp only [heading, Prod.mk.injEq] at hheading
  obtain ⟨rfl, rfl, rfl, rfl⟩ := hheading
  obtain rfl := hbody .requested
  obtain rfl := hbody .inflight
  obtain rfl := hbody .completed
  rfl

theorem IsOperation.perm (h : IsOperation instants) (hperm : others.Perm instants) :
    IsOperation others where
  distinct := (hperm.map _).nodup_iff.mpr h.distinct
  requestedTime := fun first hf second hs =>
    h.requestedTime first (hperm.mem_iff.mp hf) second (hperm.mem_iff.mp hs)
  pending := fun first hf second hs =>
    h.pending first (hperm.mem_iff.mp hf) second (hperm.mem_iff.mp hs)

theorem IsOperation.eq_of_state (h : IsOperation instants) {first second : Instant}
    (hf : first ∈ instants) (hs : second ∈ instants) (hstate : first.state = second.state) :
    first = second :=
  List.inj_on_of_nodup_map h.distinct hf hs hstate

-- It does not matter in which order the instants are told.
theorem Tells.of_mem_iff (h : Tells reader others operation)
    (hmem : ∀ instant, instant ∈ others ↔ instant ∈ instants) :
    Tells reader instants operation := by
  obtain ⟨htime, hpending, honly, hcompleted, hnot, hbody, hmissing⟩ := h
  simp only [hmem] at htime hpending honly hcompleted hnot hbody hmissing
  exact ⟨htime, hpending, honly, hcompleted, hnot, hbody, hmissing⟩

-- They tell of one operation only.
theorem Tells.unique (hne : instants ≠ [])
    (hread : ∀ instant ∈ instants, ∃ body, reader instant = .ok body)
    (h : Tells reader instants operation) (ho : Tells reader instants other) :
    operation = other := by
  obtain ⟨first, hfirst⟩ := List.exists_mem_of_ne_nil instants hne
  have htime : operation.instantTime = other.instantTime :=
    (h.instantTime first hfirst).trans (ho.instantTime first hfirst).symm
  have hpending : operation.pendingAction = other.pendingAction := by
    by_cases hall : ∀ instant ∈ instants, instant.state = .completed
    · exact (h.onlyCompleted hall first hfirst).trans (ho.onlyCompleted hall first hfirst).symm
    · push Not at hall
      obtain ⟨instant, hm, hstate⟩ := hall
      exact (h.pendingAction instant hm hstate).trans (ho.pendingAction instant hm hstate).symm
  have hcompleted : operation.action = other.action ∧
      operation.completionTime = other.completionTime := by
    by_cases hnot : ∀ instant ∈ instants, instant.state ≠ .completed
    · obtain ⟨haction, htime⟩ := h.notCompleted hnot
      obtain ⟨haction', htime'⟩ := ho.notCompleted hnot
      rw [haction, haction', htime, htime', hpending]
      exact ⟨rfl, rfl⟩
    · push Not at hnot
      obtain ⟨instant, hm, hstate⟩ := hnot
      obtain ⟨haction, htime⟩ := h.completed instant hm hstate
      obtain ⟨haction', htime'⟩ := ho.completed instant hm hstate
      rw [haction, haction', htime, htime']
      exact ⟨rfl, rfl⟩
  apply ext_body
  · simp only [heading, htime, hpending, hcompleted]
  · intro state
    by_cases hmissing : ∀ instant ∈ instants, instant.state ≠ state
    · rw [h.missing state hmissing, ho.missing state hmissing]
    · push Not at hmissing
      obtain ⟨instant, hm, rfl⟩ := hmissing
      obtain ⟨body, hbody⟩ := hread instant hm
      rw [h.body instant hm body hbody, ho.body instant hm body hbody]

-- One instant for each state has one body for each state.
theorem IsOperation.exists_bodies (h : IsOperation instants)
    (hread : ∀ instant ∈ instants, ∃ body, reader instant = .ok body) :
    ∃ bodies, Holds reader instants bodies := by
  have hbody : ∀ state, ∃ body : Bytes,
      (∀ instant ∈ instants, instant.state = state → reader instant = .ok body) ∧
      ((∀ instant ∈ instants, instant.state ≠ state) → body = []) := by
    intro state
    by_cases hmissing : ∀ instant ∈ instants, instant.state ≠ state
    · exact ⟨[], fun instant hm hstate => absurd hstate (hmissing instant hm), fun _ => rfl⟩
    · push Not at hmissing
      obtain ⟨first, hfirst, hstate⟩ := hmissing
      obtain ⟨body, hbody⟩ := hread first hfirst
      refine ⟨body, ?_, fun hnone => absurd hstate (hnone first hfirst)⟩
      intro instant hm hsame
      rw [h.eq_of_state hm hfirst (hsame.trans hstate.symm)]
      exact hbody
  choose bodies hbodies using hbody
  exact ⟨bodies, fun instant hm => (hbodies instant.state).1 instant hm rfl,
    fun state hnone => (hbodies state).2 hnone⟩

section Heading

variable {first : Instant} {rest : List Instant} (h : IsOperation (first :: rest))
include h

-- All pending instants have the action of the first one.
theorem ofInstants_pendingAction (hm : instant ∈ first :: rest)
    (hstate : instant.state ≠ .completed) :
    (ofInstants first rest).pendingAction = instant.action := by
  cases hfind : (first :: rest).find? fun instant => !instant.isCompleted with
  | none => exact absurd (find_pending_eq_none.mp hfind instant hm) hstate
  | some found =>
      have haction := h.pending found (List.mem_of_find?_eq_some hfind) instant hm
        (state_of_find_pending hfind) hstate
      simp only [ofInstants, hfind, Option.getD_some, haction]

-- A completed instant without others stands for the pending ones.
theorem ofInstants_onlyCompleted
    (hall : ∀ instant ∈ first :: rest, instant.state = .completed) (hm : instant ∈ first :: rest) :
    (ofInstants first rest).pendingAction = instant.action := by
  have hfind := find_pending_eq_none.mpr hall
  have hfirst : instant = first := by
    apply h.eq_of_state hm List.mem_cons_self
    rw [hall instant hm, hall first List.mem_cons_self]
  simp only [ofInstants, hfind, Option.getD_none, hfirst]

-- There is one completed instant at most.
theorem ofInstants_completed (hm : instant ∈ first :: rest) (hstate : instant.state = .completed) :
    (ofInstants first rest).action = instant.action ∧
      (ofInstants first rest).completionTime = instant.completionTime := by
  cases hfind : (first :: rest).find? Instant.isCompleted with
  | none => exact absurd hstate (find_completed_eq_none.mp hfind instant hm)
  | some found =>
      have hfound := (state_of_find_completed hfind).trans hstate.symm
      have hsame : found = instant :=
        h.eq_of_state (List.mem_of_find?_eq_some hfind) hm hfound
      simp only [ofInstants, hfind, Option.getD_some, Option.bind_some, hsame, and_self]

end Heading

theorem ofInstants_notCompleted {first : Instant} {rest : List Instant}
    (hnot : ∀ instant ∈ first :: rest, instant.state ≠ .completed) :
    (ofInstants first rest).action = (ofInstants first rest).pendingAction ∧
      (ofInstants first rest).completionTime = none := by
  have hfind := find_completed_eq_none.mpr hnot
  simp only [ofInstants, hfind, Option.getD_none, Option.bind_none, and_self]

-- The instants of an operation are loaded as what they tell of.
theorem IsOperation.load (h : IsOperation instants) (hne : instants ≠ [])
    (hread : ∀ instant ∈ instants, ∃ body, reader instant = .ok body) :
    ∃ operation, load reader instants = .ok operation ∧ Tells reader instants operation := by
  obtain ⟨bodies, hbodies⟩ := h.exists_bodies hread
  cases instants with
  | nil => exact absurd rfl hne
  | cons first rest =>
      obtain ⟨operation, hload, hheading, hbody⟩ :=
        readBodies_ok hbodies.read (ofInstants first rest)
      simp only [heading, Prod.mk.injEq] at hheading
      obtain ⟨htime, hcompletion, haction, hpending⟩ := hheading
      refine ⟨operation, hload, ?_, ?_, ?_, ?_, ?_, ?_, ?_⟩
      · intro instant hm
        exact htime.trans (h.requestedTime first List.mem_cons_self instant hm)
      · intro instant hm hstate
        exact hpending.trans (ofInstants_pendingAction h hm hstate)
      · intro hall instant hm
        exact hpending.trans (ofInstants_onlyCompleted h hall hm)
      · intro instant hm hstate
        rw [haction, hcompletion]
        exact ofInstants_completed h hm hstate
      · intro hnot
        rw [haction, hcompletion, hpending]
        exact ofInstants_notCompleted hnot
      · intro instant hm body hread
        have hsame : body = bodies instant.state :=
          Except.ok.inj (hread.symm.trans (hbodies.read instant hm))
        rw [hbody, if_pos ⟨instant, hm, rfl⟩, hsame]
      · intro state hnone
        rw [hbody, if_neg]
        · cases state <;> rfl
        · rintro ⟨instant, hm, hstate⟩
          exact hnone instant hm hstate

-- The first of the instants that cannot be read, and why.
inductive FirstUnread (reader : InstantReader) : List Instant → Instant → StorageFault → Prop
  | here {instant : Instant} {cause : StorageFault} {behind : List Instant}
      (h : reader instant = .error cause) : FirstUnread reader (instant :: behind) instant cause
  | behind {first instant : Instant} {cause : StorageFault} {rest : List Instant} {body : Bytes}
      (h : reader first = .ok body) (hrest : FirstUnread reader rest instant cause) :
      FirstUnread reader (first :: rest) instant cause

theorem exists_firstUnread_iff :
    (∃ instant cause, FirstUnread reader instants instant cause) ↔
      ∃ instant ∈ instants, ∃ cause, reader instant = .error cause := by
  constructor
  · rintro ⟨instant, cause, hfirst⟩
    induction hfirst with
    | here h => exact ⟨_, List.mem_cons_self, _, h⟩
    | behind _ _ ih =>
        obtain ⟨instant, hm, hcause⟩ := ih
        exact ⟨instant, List.mem_cons_of_mem _ hm, hcause⟩
  · rintro ⟨instant, hm, cause, hcause⟩
    induction instants with
    | nil => cases hm
    | cons first rest ih =>
        cases hread : reader first with
        | error cause => exact ⟨first, cause, .here hread⟩
        | ok body =>
            rcases List.mem_cons.mp hm with rfl | hm
            · rw [hread] at hcause
              cases hcause
            · obtain ⟨found, cause, hfirst⟩ := ih hm
              exact ⟨found, cause, .behind hread hfirst⟩

theorem readBodies_error_iff (operation : LoadedOperation) :
    readBodies reader operation instants = .error fault ↔
      ∃ instant cause, fault = .unreadableInstant instant cause ∧
        FirstUnread reader instants instant cause := by
  induction instants generalizing operation with
  | nil =>
      constructor
      · intro h
        cases h
      · rintro ⟨instant, cause, _, hfirst⟩
        cases hfirst
  | cons first rest ih =>
      cases hread : reader first with
      | error cause =>
          simp only [readBodies, hread, Except.error.injEq]
          constructor
          · rintro rfl
            exact ⟨first, cause, rfl, .here hread⟩
          · rintro ⟨instant, other, rfl, hfirst⟩
            cases hfirst with
            | here h =>
                rw [hread] at h
                rw [Except.error.inj h]
            | behind h _ =>
                rw [hread] at h
                cases h
      | ok body =>
          simp only [readBodies, hread, ih]
          constructor
          · rintro ⟨instant, cause, hfault, hfirst⟩
            exact ⟨instant, cause, hfault, .behind hread hfirst⟩
          · rintro ⟨instant, cause, hfault, hfirst⟩
            cases hfirst with
            | here h =>
                rw [hread] at h
                cases h
            | behind _ hrest => exact ⟨instant, cause, hfault, hrest⟩

theorem load_error_iff :
    load reader instants = .error fault ↔
      (instants = [] ∧ fault = .noInstants) ∨
        ∃ instant cause, fault = .unreadableInstant instant cause ∧
          FirstUnread reader instants instant cause := by
  cases instants with
  | nil =>
      constructor
      · intro h
        exact .inl ⟨rfl, (Except.error.inj h).symm⟩
      · rintro (⟨_, rfl⟩ | ⟨instant, cause, _, hfirst⟩)
        · rfl
        · cases hfirst
  | cons first rest =>
      have hempty : ¬ (first :: rest = [] ∧ fault = .noInstants) := nofun
      rw [or_iff_right hempty]
      exact readBodies_error_iff _

-- The instants of an operation are loaded alike in every order, as the operation that they tell
-- of. Loading fails on an empty list, and else with the first instant that cannot be read.
theorem load_unordered (reader : InstantReader) (instants : List Instant) :
    (instants ≠ [] → IsOperation instants →
      (∀ instant ∈ instants, ∃ body, reader instant = .ok body) →
      ∃ operation, Tells reader instants operation ∧
        ∀ others, others.Perm instants → load reader others = .ok operation) ∧
    (load reader instants = .error .noInstants ↔ instants = []) ∧
    (instants ≠ [] →
      ((∃ fault, load reader instants = .error fault) ↔
        ∃ instant ∈ instants, ∃ cause, reader instant = .error cause) ∧
      ∀ fault, load reader instants = .error fault ↔
        ∃ instant cause, fault = .unreadableInstant instant cause ∧
          FirstUnread reader instants instant cause) := by
  refine ⟨?_, ?_, ?_⟩
  · intro hne hoperation hread
    obtain ⟨operation, _, htells⟩ := hoperation.load hne hread
    refine ⟨operation, htells, ?_⟩
    intro others hperm
    have hothers : others ≠ [] := by
      rintro rfl
      exact hne hperm.nil_eq.symm
    have hreadable : ∀ instant ∈ others, ∃ body, reader instant = .ok body :=
      fun instant hm => hread instant (hperm.mem_iff.mp hm)
    obtain ⟨other, hload, htold⟩ := (hoperation.perm hperm).load hothers hreadable
    rw [hload, (htold.of_mem_iff fun _ => hperm.mem_iff).unique hne hread htells]
  · rw [load_error_iff]
    constructor
    · rintro (⟨hempty, _⟩ | ⟨instant, cause, hfault, _⟩)
      · exact hempty
      · cases hfault
    · intro hempty
      exact .inl ⟨hempty, rfl⟩
  · intro hne
    have hfails : ∀ fault, load reader instants = .error fault ↔
        ∃ instant cause, fault = .unreadableInstant instant cause ∧
          FirstUnread reader instants instant cause := by
      intro fault
      rw [load_error_iff]
      exact or_iff_right fun hempty => hne hempty.1
    refine ⟨?_, hfails⟩
    rw [← exists_firstUnread_iff]
    constructor
    · rintro ⟨fault, hfault⟩
      obtain ⟨instant, cause, _, hfirst⟩ := (hfails fault).mp hfault
      exact ⟨instant, cause, hfirst⟩
    · rintro ⟨instant, cause, hfirst⟩
      exact ⟨_, (hfails _).mpr ⟨instant, cause, rfl, hfirst⟩⟩

-- A compaction that is told from its end.
def told : List Instant :=
  [⟨"1", .commit, .completed, some "2"⟩, ⟨"1", .compaction, .inflight, none⟩,
    ⟨"1", .compaction, .requested, none⟩]

-- Readers of its bodies, one of which knows nothing of compactions.
def toldReader : InstantReader := fun instant =>
  .ok (if instant.state = .inflight then [] else [1])

def forgetful : InstantReader := fun instant =>
  if instant.action = .compaction then .error (.notRecorded instant) else .ok [1]

theorem load_unordered_told :
    told ≠ [] ∧ IsOperation told ∧ (∀ instant ∈ told, ∃ body, toldReader instant = .ok body) ∧
      load toldReader told.reverse =
        .ok ⟨"1", some "2", .commit, .compaction, some [1], none, some [1]⟩ ∧
      load forgetful told = .error (.unreadableInstant ⟨"1", .compaction, .inflight, none⟩
        (.notRecorded ⟨"1", .compaction, .inflight, none⟩)) := by
  have hne : told ≠ [] := by decide
  have hoperation : IsOperation told := ⟨by decide, by decide, by decide⟩
  have hread : ∀ instant ∈ told, ∃ body, toldReader instant = .ok body := fun _ _ => ⟨_, rfl⟩
  refine ⟨hne, hoperation, hread, ?_, ?_⟩
  · obtain ⟨operation, _, hload⟩ := (load_unordered toldReader told).1 hne hoperation hread
    have hself : load toldReader told =
        .ok ⟨"1", some "2", .commit, .compaction, some [1], none, some [1]⟩ := rfl
    rw [hload _ (List.reverse_perm told), ← hload _ (.refl told), hself]
  · apply (((load_unordered forgetful told).2.2 hne).2 _).mpr
    exact ⟨_, _, rfl, .behind rfl (.here rfl)⟩

end TableHistory.LoadedOperation
