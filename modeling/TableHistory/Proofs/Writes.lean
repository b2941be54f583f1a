namespace TableHistory

variable {σ ι α β : Type} {apply : σ → ι → σ}

-- A part that no item writes to.
theorem kept_foldl (part : σ → β) (hstep : ∀ state item, part (apply state item) = part state)
    (state : σ) (items : List ι) : part (items.foldl apply state) = part state := by
  induction items generalizing state with
  | nil => rfl
  | cons item rest ih => exact (ih (apply state item)).trans (hstep state item)

theorem part_foldl (part : σ → β) (wrote? : ι → Option α) (hold : α → β)
    (hstep : ∀ state item, part (apply state item) = ((wrote? item).map hold).getD (part state))
    (state : σ) (items : List ι) :
    part (items.foldl apply state) =
      ((items.filterMap wrote?).getLast?.map hold).getD (part state) := by
  induction items generalizing state with
  | nil => rfl
  | cons item rest ih =>
      calc part ((item :: rest).foldl apply state)
        _ = ((rest.filterMap wrote?).getLast?.map hold).getD (part (apply state item)) :=
          ih (apply state item)
        _ = ((rest.filterMap wrote?).getLast?.map hold).getD
            (((wrote? item).map hold).getD (part state)) := by
          rw [hstep]
        _ = (((item :: rest).filterMap wrote?).getLast?.map hold).getD (part state) := by
          cases hwrote : wrote? item with
          | none =>
              rw [List.filterMap_cons_none hwrote]
              rfl
          | some value =>
              rw [List.filterMap_cons_some hwrote, List.getLast?_cons]
              cases (rest.filterMap wrote?).getLast? with
              | none => rfl
              | some last => rfl

section Find

-- A part that may hold nothing, and items that are meant for it or not.
variable (find? : σ → Option α) {meant : ι → Prop} [DecidablePred meant] {value : ι → α}
  (hstep : ∀ state item,
    find? (apply state item) = if meant item then some (value item) else find? state)

include hstep

theorem find_foldl (state : σ) (items : List ι) :
    find? (items.foldl apply state) =
      ((items.filter fun item => meant item).getLast?.map value).or (find? state) := by
  have hwrote : ∀ state item, find? (apply state item) =
      ((Option.guard (fun item => meant item) item).map (some ∘ value)).getD (find? state) := by
    intro state item
    rw [hstep]
    by_cases hmeant : meant item
    · simp [Option.guard, hmeant]
    · simp [Option.guard, hmeant]
  rw [part_foldl find? _ _ hwrote, List.filterMap_eq_filter]
  cases (items.filter fun item => meant item).getLast? with
  | none => rfl
  | some last => rfl

theorem find_swap (state : σ) (left right : ι) (h : meant left → ¬ meant right) :
    find? (apply (apply state left) right) = find? (apply (apply state right) left) := by
  rw [hstep, hstep, hstep, hstep]
  by_cases hleft : meant left
  · rw [if_neg (h hleft), if_pos hleft, if_pos hleft]
  · rw [if_neg hleft, if_neg hleft]

end Find

end TableHistory
