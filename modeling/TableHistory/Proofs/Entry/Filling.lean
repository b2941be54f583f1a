import TableHistory.Entry.Build
import TableHistory.Proofs.Result
import TableHistory.Proofs.Traced

namespace TableHistory

namespace BodySource

variable (source : BodySource) {body : Bytes}

-- Unless it is only probed, a body that is not empty is read as a payload of the slot.
theorem read_of_ne_nil {rule : SlotRule} (hp : rule.presence ≠ .probe) (hne : body ≠ []) :
    source.read rule body = (do return some (← source.readPayload body rule.slot)) := by
  have hbody : body.isEmpty = false := by simpa using hne
  obtain ⟨slot, presence⟩ := rule
  cases presence with
  | always => rfl
  | nonEmpty => simp only [read, readWith, hbody, Bool.false_eq_true, if_false]
  | required => simp only [read, readWith, hbody, Bool.false_eq_true, if_false]
  | probe => exact absurd rfl hp

theorem readRecord_of_ne_nil (slot : Slot) (hne : body ≠ []) :
    (source.readRecord slot body).result =
      (Framed.read slot.message body).mapError
        (.payload source.operation source.action slot) := by
  have hbody : body.isEmpty = false := by simpa using hne
  unfold readRecord
  rw [Traced.result_ofExcept]
  simp only [Framed.readOrZero, hbody, Bool.false_eq_true, if_false]

theorem readCommit_result (decoded : Traced CommitFault Metadata) :
    (source.readCommit decoded).result =
      (decoded.result.mapError (.commitMetadata source.operation source.action)).map
        Metadata.body := by
  unfold readCommit
  rw [Traced.result_bind, Traced.result_mapFault]
  cases decoded.result <;> rfl

end BodySource

namespace Entry

-- The same header, and the same payloads in all slots but one.
structure AgreeBut (slot : Slot) (left right : Entry) : Prop where
  operationId : left.operationId = right.operationId
  state : left.state = right.state
  transitionTime : left.transitionTime = right.transitionTime
  action : left.action = right.action
  payload : ∀ other, other ≠ slot → left.payload other = right.payload other

theorem AgreeBut.refl (slot : Slot) (entry : Entry) : AgreeBut slot entry entry :=
  ⟨rfl, rfl, rfl, rfl, fun _ _ => rfl⟩

theorem payload_insert (entry : Entry) (slot : Slot) (value : slot.Value) :
    (entry.insert ⟨slot, value⟩).payload slot = some value := dif_pos rfl

theorem payload_insert_of_ne (entry : Entry) {payload : Payload} {slot : Slot}
    (h : slot ≠ payload.slot) : (entry.insert payload).payload slot = entry.payload slot :=
  dif_neg h

theorem agreeBut_insert (entry : Entry) (slot : Slot) (value : slot.Value) :
    AgreeBut slot entry (entry.insert ⟨slot, value⟩) :=
  ⟨rfl, rfl, rfl, rfl, fun _ hne => (entry.payload_insert_of_ne hne).symm⟩

variable (entry : Entry) (source : BodySource) {body : Bytes}

theorem fill_always (slot : Slot) :
    (entry.fill source (some ⟨slot, .always⟩) body).result =
      (source.readSlot body slot).result.map fun value => entry.insert ⟨slot, value⟩ := by
  simp only [fill, BodySource.read, BodySource.readWith, BodySource.readPayload, Traced.result_bind]
  cases (source.readSlot body slot).result <;> rfl

theorem fill_of_ne_nil {rule : SlotRule} (hp : rule.presence ≠ .probe) (hne : body ≠ []) :
    (entry.fill source (some rule) body).result =
      (source.readSlot body rule.slot).result.map fun value => entry.insert ⟨rule.slot, value⟩ := by
  simp only [fill, source.read_of_ne_nil hp hne, BodySource.readPayload, Traced.result_bind]
  cases (source.readSlot body rule.slot).result <;> rfl

theorem fill_nonEmpty (slot : Slot) :
    (entry.fill source (some ⟨slot, .nonEmpty⟩) body).result =
      if body = [] then .ok entry
      else (source.readSlot body slot).result.map fun value => entry.insert ⟨slot, value⟩ := by
  by_cases hbody : body = []
  · subst hbody
    rfl
  · rw [if_neg hbody, fill_of_ne_nil entry source (by simp) hbody]

-- Probing never fails.
theorem fill_probe (slot : Slot) :
    (entry.fill source (some ⟨slot, .probe⟩) body).result =
      .ok (if body = [] then entry
        else match (source.readSlot body slot).result with
          | .ok value => entry.insert ⟨slot, value⟩
          | .error _ => entry) := by
  by_cases hbody : body = []
  · subst hbody
    rfl
  · have hne : body.isEmpty = false := by simpa using hbody
    simp only [fill, BodySource.read, BodySource.readWith, hne, Bool.false_eq_true, if_false,
      if_neg hbody, Traced.result_bind, Traced.result_attempt, BodySource.readPayload]
    cases (source.readSlot body slot).result <;> rfl

-- What a fill that does not probe does when it succeeds.
theorem fill_ok {rule : SlotRule} (hp : rule.presence ≠ .probe) {other : Entry}
    (h : (entry.fill source (some rule) body).result = .ok other) :
    (body = [] ∧ rule.presence ≠ .always ∧ other = entry) ∨
      ((body = [] → rule.presence = .always) ∧
        ∃ value, (source.readSlot body rule.slot).result = .ok value ∧
          other = entry.insert ⟨rule.slot, value⟩) := by
  by_cases hbody : body = []
  · subst hbody
    obtain ⟨slot, presence⟩ := rule
    cases presence with
    | always =>
        rw [fill_always] at h
        obtain ⟨value, hread, he⟩ := map_eq_ok.mp h
        exact .inr ⟨fun _ => rfl, value, hread, he.symm⟩
    | nonEmpty => exact .inl ⟨rfl, nofun, (Except.ok.inj h).symm⟩
    | required => cases h
    | probe => exact absurd rfl hp
  · rw [fill_of_ne_nil entry source hp hbody] at h
    obtain ⟨value, hread, he⟩ := map_eq_ok.mp h
    exact .inr ⟨fun hempty => absurd hempty hbody, value, hread, he.symm⟩

-- All that filling can do: it leaves the record as it is, or puts what was read into the slot of
-- the rule.
theorem fill_cases {rule : Option SlotRule} {other : Entry}
    (h : (entry.fill source rule body).result = .ok other) :
    other = entry ∨ ∃ slotRule ∈ rule, ∃ value,
      (source.readSlot body slotRule.slot).result = .ok value ∧
        other = entry.insert ⟨slotRule.slot, value⟩ := by
  cases rule with
  | none => exact .inl (Except.ok.inj h).symm
  | some rule =>
      obtain ⟨slot, presence⟩ := rule
      by_cases hp : presence = .probe
      · subst hp
        rw [fill_probe] at h
        have he := (Except.ok.inj h).symm
        split at he
        · exact .inl he
        · split at he
          · rename_i value hread
            exact .inr ⟨_, rfl, value, hread, he⟩
          · exact .inl he
      · rcases fill_ok entry source hp h with ⟨_, _, he⟩ | ⟨_, value, hread, he⟩
        · exact .inl he
        · exact .inr ⟨_, rfl, value, hread, he⟩

end Entry

end TableHistory
