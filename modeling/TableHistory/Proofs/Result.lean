namespace TableHistory

variable {ε α β : Type}

@[simp] theorem ok_bind (value : α) (next : α → Except ε β) :
    (Except.ok value >>= next) = next value := rfl

@[simp] theorem error_bind (fault : ε) (next : α → Except ε β) :
    ((Except.error fault : Except ε α) >>= next) = .error fault := rfl

@[simp] theorem pure_eq_ok (value : α) : (pure value : Except ε α) = .ok value := rfl

@[simp] theorem mapError_ok {δ : Type} (change : ε → δ) (value : α) :
    (Except.ok value : Except ε α).mapError change = .ok value := rfl

@[simp] theorem mapError_error {δ : Type} (change : ε → δ) (fault : ε) :
    (Except.error fault : Except ε α).mapError change = .error (change fault) := rfl

theorem mapError_eq_ok {δ : Type} {result : Except ε α} {change : ε → δ} {value : α} :
    result.mapError change = .ok value ↔ result = .ok value := by
  cases result with
  | error fault => simp
  | ok first => simp

theorem mapError_eq_error {δ : Type} {result : Except ε α} {change : ε → δ} {fault : δ} :
    result.mapError change = .error fault ↔
      ∃ cause, result = .error cause ∧ change cause = fault := by
  cases result with
  | error cause => simp
  | ok value => simp

theorem map_eq_ok {result : Except ε α} {change : α → β} {value : β} :
    result.map change = .ok value ↔ ∃ first, result = .ok first ∧ change first = value := by
  cases result with
  | error fault => exact ⟨nofun, nofun⟩
  | ok first => simp [Except.map]

theorem map_eq_error {result : Except ε α} {change : α → β} {fault : ε} :
    result.map change = .error fault ↔ result = .error fault := by
  cases result with
  | error cause => simp [Except.map]
  | ok value => simp [Except.map]

theorem bind_eq_ok {first : Except ε α} {next : α → Except ε β} {result : β} :
    (first >>= next) = .ok result ↔ ∃ value, first = .ok value ∧ next value = .ok result := by
  cases first with
  | error fault => simp
  | ok value => simp

theorem bind_eq_error {first : Except ε α} {next : α → Except ε β} {fault : ε} :
    (first >>= next) = .error fault ↔
      first = .error fault ∨ ∃ value, first = .ok value ∧ next value = .error fault := by
  cases first with
  | error cause => simp
  | ok value => simp

end TableHistory
