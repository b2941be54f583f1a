import TableHistory.Proofs.Entry.Filling
import TableHistory.Proofs.Writes

namespace TableHistory.Entry

open Text

variable {entry left right : Entry} {payloads others : List Payload} {first second : Payload}

-- What a slot holds, with the slot that it is in.
def payloadIn (entry : Entry) (slot : Slot) : Option Payload :=
  (entry.payload slot).map (Payload.mk slot)

theorem payloadIn_insert (entry : Entry) (payload : Payload) (slot : Slot) :
    (entry.insert payload).payloadIn slot =
      if payload.slot = slot then some payload else entry.payloadIn slot := by
  unfold payloadIn
  by_cases h : payload.slot = slot
  · subst h
    rw [if_pos rfl, payload_insert entry payload.slot payload.value]
    rfl
  · rw [if_neg h, payload_insert_of_ne entry (Ne.symm h)]

theorem has_eq (entry : Entry) (slot : Slot) : entry.has slot = (entry.payloadIn slot).isSome :=
  Option.isSome_map.symm

-- Records with one header and the same payloads are equal.
theorem ext_payloadIn (hid : left.operationId = right.operationId)
    (hstate : left.state = right.state) (htime : left.transitionTime = right.transitionTime)
    (haction : left.action = right.action)
    (h : ∀ slot, left.payloadIn slot = right.payloadIn slot) : left = right := by
  have hpayload : left.payload = right.payload := by
    funext slot
    apply Option.map_injective (f := Payload.mk slot) _ (h slot)
    intro value other hvalue
    exact eq_of_heq (Payload.mk.inj hvalue).2
  cases left
  cases right
  simp_all

theorem insert_comm (entry : Entry) (h : first.slot ≠ second.slot) :
    (entry.insert first).insert second = (entry.insert second).insert first := by
  refine ext_payloadIn rfl rfl rfl rfl ?_
  intro slot
  apply find_swap (fun entry : Entry => entry.payloadIn slot)
    (fun entry payload => payloadIn_insert entry payload slot)
  rintro rfl
  exact h.symm

-- The record after payloads were inserted one after the other.
def inserted (entry : Entry) (payloads : List Payload) : Entry := payloads.foldl insert entry

theorem payloadIn_inserted (entry : Entry) (payloads : List Payload) (slot : Slot) :
    (entry.inserted payloads).payloadIn slot =
      (payloads.filter fun payload => payload.slot = slot).getLast?.or (entry.payloadIn slot) := by
  have hlast := find_foldl (fun entry : Entry => entry.payloadIn slot)
    (fun entry payload => payloadIn_insert entry payload slot) entry payloads
  rw [inserted, hlast, Option.map_id']

theorem inserted_header (entry : Entry) (payloads : List Payload) :
    (entry.inserted payloads).operationId = entry.operationId ∧
      (entry.inserted payloads).state = entry.state ∧
      (entry.inserted payloads).transitionTime = entry.transitionTime ∧
      (entry.inserted payloads).action = entry.action := by
  refine ⟨kept_foldl operationId ?_ entry payloads, kept_foldl Entry.state ?_ entry payloads,
    kept_foldl transitionTime ?_ entry payloads, kept_foldl Entry.action ?_ entry payloads⟩
  all_goals exact fun _ _ => rfl

-- Only the order within each slot counts.
theorem inserted_congr (entry : Entry) (h : ∀ slot,
    (others.filter fun payload => payload.slot = slot) =
      payloads.filter fun payload => payload.slot = slot) :
    entry.inserted others = entry.inserted payloads := by
  obtain ⟨hid, hstate, htime, haction⟩ := entry.inserted_header payloads
  obtain ⟨hid', hstate', htime', haction'⟩ := entry.inserted_header others
  apply ext_payloadIn
  · rw [hid, hid']
  · rw [hstate, hstate']
  · rw [htime, htime']
  · rw [haction, haction']
  · intro slot
    rw [payloadIn_inserted, payloadIn_inserted, h]

section Header

variable {operationId : String} {state : State} {time : Option String} {action : Action}

-- The record that payloads fill from its header on.
def filled (operationId : String) (state : State) (time : Option String) (action : Action)
    (payloads : List Payload) : Entry :=
  (header operationId state time action).inserted payloads

theorem payloadIn_filled (slot : Slot) :
    (filled operationId state time action payloads).payloadIn slot =
      (payloads.filter fun payload => payload.slot = slot).getLast? :=
  (payloadIn_inserted _ payloads slot).trans Option.or_none

theorem has_filled (slot : Slot) : (filled operationId state time action payloads).has slot = true ↔
    slot ∈ payloads.map Payload.slot := by
  rw [has_eq, payloadIn_filled, List.mem_map]
  simp

theorem slots_filled : (filled operationId state time action payloads).slots =
    Slot.all.filter fun slot => slot ∈ payloads.map Payload.slot := by
  apply List.filter_congr
  intro slot _
  rw [Bool.eq_iff_iff, has_filled, decide_eq_true_eq]

theorem isConsistent_filled :
    (filled operationId state time action payloads).isConsistent = true ↔
      ∀ payload ∈ payloads, action.rule.allows payload.slot = true := by
  have haction : (filled operationId state time action payloads).action = action :=
    (inserted_header _ payloads).2.2.2
  unfold isConsistent
  rw [haction, slots_filled, List.all_eq_true]
  simp only [List.mem_filter, Slot.mem_all, true_and, decide_eq_true_eq, List.forall_mem_map]

end Header

-- A slot with a payload has a member in the written record.
theorem names_members_place {β : Type} (slot : Slot) (rest : Places β) (value : Option slot.Value)
    (values : β) :
    ((Places.cons (place slot) rest).members (value, values)).map Prod.fst =
      (if value.isSome then [slot.name] else []) ++ (rest.members values).map Prod.fst := by
  cases value <;> rfl

theorem names_filter_has (entry : Entry) (slot : Slot) (rest : List Slot) :
    ((slot :: rest).filter entry.has).map Slot.name =
      (if (entry.payload slot).isSome then [slot.name] else []) ++
        (rest.filter entry.has).map Slot.name := by
  unfold has
  cases h : (entry.payload slot).isSome with
  | true => simp [h]
  | false => simp [h]

-- The members of the header in a written record.
def headerNames : List String :=
  ["operation-id", "action-state", "state-transition-time", "action-type"]

theorem names_members_header {β : Type} (entry : Entry) (rest : Places β) (values : β) :
    ((Places.cons (.required "operation-id" .text) <| .cons (.required "action-state" State.form) <|
      .cons timePlace <| .cons (.required "action-type" Action.form) rest).members
        (entry.operationId, entry.state, entry.transitionTime, entry.action, values)).map Prod.fst =
      headerNames ++ (rest.members values).map Prod.fst := rfl

-- The record is written with its slots in the order in which they are told.
theorem exists_members (entry : Entry) : ∃ members, form.tree entry = .object members ∧
    members.map Prod.fst = headerNames ++ entry.slots.map Slot.name := by
  refine ⟨_, rfl, (names_members_header entry _ _).trans ?_⟩
  unfold slots Slot.all
  simp only [names_filter_has]
  repeat rw [names_members_place]
  rfl

-- The slots of a record are cells of their own. Whatever is inserted, the header stays, and a slot
-- has a payload if one was inserted for it, which is the last of them. The slots that have one are
-- told once each and in the order of the written record, and they are allowed by the action if all
-- that was inserted is. How payloads of different slots follow each other does not count.
theorem payload_last_inserted (operationId : String) (state : State) (time : Option String)
    (action : Action) (payloads : List Payload) :
    let entry := filled operationId state time action payloads
    (entry.operationId = operationId ∧ entry.state = state ∧ entry.transitionTime = time ∧
      entry.action = action) ∧
    (∀ slot, (entry.has slot = true ↔ ∃ payload ∈ payloads, payload.slot = slot) ∧
      (entry.payload slot).map (Payload.mk slot) =
        (payloads.filter fun payload => payload.slot = slot).getLast?) ∧
    (entry.slots = Slot.all.filter fun slot => slot ∈ payloads.map Payload.slot) ∧
    entry.slots.Nodup ∧
    (∃ members, form.tree entry = .object members ∧
      members.map Prod.fst = headerNames ++ entry.slots.map Slot.name) ∧
    (entry.isConsistent = true ↔ ∀ payload ∈ payloads, action.rule.allows payload.slot = true) ∧
    (∀ others, (∀ slot, (others.filter fun payload => payload.slot = slot) =
        payloads.filter fun payload => payload.slot = slot) →
      filled operationId state time action others = entry) ∧
    ∀ (other : Entry) (first second : Payload), first.slot ≠ second.slot →
      (other.insert first).insert second = (other.insert second).insert first := by
  intro entry
  refine ⟨inserted_header _ payloads, ?_, slots_filled, ?_, exists_members entry,
    isConsistent_filled, ?_, ?_⟩
  · intro slot
    refine ⟨?_, payloadIn_filled slot⟩
    rw [← List.mem_map]
    exact has_filled slot
  · have hall : Slot.all.Nodup := by decide
    exact hall.filter entry.has
  · intro others hsame
    exact inserted_congr _ hsame
  · intro other first second hne
    exact other.insert_comm hne

-- The two slots that hold commit records, one of them filled twice.
def inflightTwice : List Payload :=
  [⟨.inflightReplaceMetadata, { compacted := true }⟩, ⟨.commitMetadata, {}⟩,
    ⟨.inflightReplaceMetadata, { operationType := some "CLUSTER" }⟩]

-- The same with the commit metadata last.
def inflightFirst : List Payload :=
  [⟨.inflightReplaceMetadata, { compacted := true }⟩,
    ⟨.inflightReplaceMetadata, { operationType := some "CLUSTER" }⟩, ⟨.commitMetadata, {}⟩]

theorem payload_last_inserted_inflightTwice :
    (filled "1" .completed none .clustering inflightTwice).payloadIn .inflightReplaceMetadata =
        some ⟨.inflightReplaceMetadata, { operationType := some "CLUSTER" }⟩ ∧
      (filled "1" .completed none .clustering inflightTwice).slots =
        [.commitMetadata, .inflightReplaceMetadata] ∧
      (filled "1" .completed none .clustering inflightTwice).isConsistent = false ∧
      filled "1" .completed none .clustering inflightFirst =
        filled "1" .completed none .clustering inflightTwice := by
  obtain ⟨_, hslot, hslots, _, _, hconsistent, hothers, _⟩ :=
    payload_last_inserted "1" .completed none .clustering inflightTwice
  refine ⟨(hslot .inflightReplaceMetadata).2, hslots, ?_, hothers inflightFirst ?_⟩
  · rw [Bool.eq_false_iff, ne_eq, hconsistent]
    decide
  · intro slot
    cases slot <;> rfl

end TableHistory.Entry
