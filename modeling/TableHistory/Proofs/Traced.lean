import TableHistory.Note

namespace TableHistory.Traced

variable {ε δ α β : Type}

@[simp] theorem result_bind (first : Traced ε α) (next : α → Traced ε β) :
    (first >>= next).result = (do (next (← first.result)).result) := by
  obtain ⟨result, notes⟩ := first
  cases result <;> rfl

@[simp] theorem result_pure (value : α) : (pure value : Traced ε α).result = .ok value := rfl

@[simp] theorem result_note (left : Note) : (note left : Traced ε Unit).result = .ok () := rfl

@[simp] theorem result_ofExcept (result : Except ε α) : (ofExcept result).result = result := rfl

@[simp] theorem result_mapFault (change : ε → δ) (traced : Traced ε α) :
    (traced.mapFault change).result = traced.result.mapError change := rfl

@[simp] theorem result_attempt (traced : Traced ε α) :
    (traced.attempt : Traced δ _).result = .ok traced.result := rfl

theorem error_bind (fault : ε) (notes : List Note) (next : α → Traced ε β) :
    ((⟨.error fault, notes⟩ : Traced ε α) >>= next) = ⟨.error fault, notes⟩ := rfl

theorem ok_bind (value : α) (notes : List Note) (next : α → Traced ε β) :
    ((⟨.ok value, notes⟩ : Traced ε α) >>= next) =
      ⟨(next value).result, notes ++ (next value).notes⟩ := rfl

theorem bind_assoc {γ : Type} (first : Traced ε α) (next : α → Traced ε β)
    (last : β → Traced ε γ) :
    first >>= next >>= last = first >>= fun value => next value >>= last := by
  obtain ⟨result, notes⟩ := first
  cases result with
  | error fault => rfl
  | ok value =>
      simp only [ok_bind]
      obtain ⟨result, more⟩ := next value
      cases result with
      | error fault => rfl
      | ok value => simp only [ok_bind, List.append_assoc]

instance : LawfulMonad (Traced ε) := LawfulMonad.mk' (Traced ε)
  (by
    intro α traced
    obtain ⟨result, notes⟩ := traced
    cases result with
    | error fault => rfl
    | ok value => exact congrArg (Traced.mk _) notes.append_nil)
  (fun _ _ => rfl) bind_assoc

theorem map_mk (change : α → β) (result : Except ε α) (notes : List Note) :
    change <$> (⟨result, notes⟩ : Traced ε α) = ⟨result.map change, notes⟩ := by
  cases result with
  | error fault => rfl
  | ok value => exact congrArg (Traced.mk _) notes.append_nil

theorem attempt_map (change : α → β) (traced : Traced ε α) :
    ((change <$> traced).attempt : Traced δ _) = Except.map change <$> traced.attempt := by
  obtain ⟨result, notes⟩ := traced
  simp only [attempt, map_mk]
  rfl

theorem toOption_return (change : α → β) (traced : Traced ε α) :
    (do return change (← traced)).result.toOption = traced.result.toOption.map change := by
  obtain ⟨result, notes⟩ := traced
  cases result <;> rfl

-- Whether it succeeds or fails, it leaves no notes but of one kind.
def LeavesOnly (kind : Note → Prop) (traced : Traced ε α) : Prop :=
  ∀ note ∈ traced.notes, kind note

variable {kind : Note → Prop} {first : Traced ε α}

theorem leavesOnly_of_notes_nil (h : first.notes = []) : first.LeavesOnly kind := by
  intro note hnote
  rw [h] at hnote
  exact absurd hnote List.not_mem_nil

theorem leavesOnly_pure (value : α) : (pure value : Traced ε α).LeavesOnly kind :=
  leavesOnly_of_notes_nil rfl

theorem leavesOnly_ofExcept (result : Except ε α) : (ofExcept result).LeavesOnly kind :=
  leavesOnly_of_notes_nil rfl

theorem leavesOnly_note {left : Note} (h : kind left) :
    (note left : Traced ε Unit).LeavesOnly kind := by
  intro other hother
  rw [List.mem_singleton.mp hother]
  exact h

theorem leavesOnly_mapFault (change : ε → δ) (h : first.LeavesOnly kind) :
    (first.mapFault change).LeavesOnly kind := h

theorem leavesOnly_attempt (h : first.LeavesOnly kind) :
    (first.attempt : Traced δ _).LeavesOnly kind := h

-- What comes behind only matters for the values that it is run on.
theorem leavesOnly_bind {next : α → Traced ε β} (hfirst : first.LeavesOnly kind)
    (hnext : ∀ value, first.result = .ok value → (next value).LeavesOnly kind) :
    (first >>= next).LeavesOnly kind := by
  obtain ⟨result, notes⟩ := first
  cases result with
  | error fault => exact hfirst
  | ok value =>
      intro note hnote
      rcases List.mem_append.mp hnote with hnote | hnote
      · exact hfirst note hnote
      · exact hnext value rfl note hnote

end TableHistory.Traced
