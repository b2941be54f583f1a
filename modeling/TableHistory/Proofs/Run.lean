import TableHistory.Bytes

namespace TableHistory

variable {ι κ σ τ : Type}

-- The steps of the items take one state to the other, item after item.
inductive Run (step : ι → σ → σ → Prop) : List ι → σ → σ → Prop
  | nil (state : σ) : Run step [] state state
  | cons {item : ι} {items : List ι} {first next last : σ} (hstep : step item first next)
      (hrest : Run step items next last) : Run step (item :: items) first last

namespace Run

variable {step : ι → σ → σ → Prop}

theorem nil_iff {first last : σ} : Run step [] first last ↔ first = last := by
  constructor
  · intro h
    cases h
    rfl
  · rintro rfl
    exact nil first

-- Steps that change nothing.
theorem still {items : List ι} {state : σ} (h : ∀ item ∈ items, step item state state) :
    Run step items state state := by
  induction items with
  | nil => exact nil state
  | cons item items ih =>
      have hrest := ih fun other ho => h other (List.mem_cons_of_mem _ ho)
      exact cons (h item List.mem_cons_self) hrest

theorem append {left right : List ι} {first middle last : σ} (hl : Run step left first middle)
    (hr : Run step right middle last) : Run step (left ++ right) first last := by
  induction hl with
  | nil => exact hr
  | cons hstep _ ih => exact cons hstep (ih hr)

-- A run carries over to any steps that follow its own.
theorem map {step' : κ → τ → τ → Prop} {items : List ι} {first last : σ} (item' : ι → κ)
    (state' : σ → τ) (h : Run step items first last)
    (hstep : ∀ item ∈ items, ∀ a b, step item a b → step' (item' item) (state' a) (state' b)) :
    Run step' (items.map item') (state' first) (state' last) := by
  induction h with
  | nil => exact nil _
  | cons hs _ ih =>
      have hrest := ih fun item hi => hstep item (List.mem_cons_of_mem _ hi)
      exact cons (hstep _ List.mem_cons_self _ _ hs) hrest

theorem mapState {step' : ι → τ → τ → Prop} {items : List ι} {first last : σ} (state' : σ → τ)
    (h : Run step items first last)
    (hstep : ∀ item ∈ items, ∀ a b, step item a b → step' item (state' a) (state' b)) :
    Run step' items (state' first) (state' last) := by
  have hrun := h.map id state' hstep
  rwa [List.map_id] at hrun

-- A run along a list whose front is taken off.
theorem split {front items : List ι} {first last : σ} (h : Run step (front ++ items) first last) :
    ∃ middle, Run step front first middle ∧ Run step items middle last := by
  induction front generalizing first with
  | nil => exact ⟨first, nil first, h⟩
  | cons item front ih =>
      cases h with
      | cons hstep hrest =>
          obtain ⟨middle, hfront, hitems⟩ := ih hrest
          exact ⟨middle, cons hstep hfront, hitems⟩

-- The steps of two items can be taken the other way round.
def Swaps (step : ι → σ → σ → Prop) (left right : ι) : Prop :=
  ∀ ⦃first middle last⦄, step left first middle → step right middle last →
    ∃ other, step right first other ∧ step left other last

-- The steps of two items lead to the same state in either order.
def Commutes (step : ι → σ → σ → Prop) (left right : ι) : Prop :=
  Swaps step left right ∧ Swaps step right left

-- Steps that commute lead to the same state in any order.
theorem perm {items others : List ι} {first last : σ} (h : Run step items first last)
    (hperm : items.Perm others) (hcommutes : items.Pairwise (Commutes step)) :
    Run step others first last := by
  have hsymm : ∀ {left right : ι}, Commutes step left right → Commutes step right left :=
    fun hc => ⟨hc.2, hc.1⟩
  induction hperm generalizing first last with
  | nil => exact h
  | cons item hperm ih =>
      cases h with
      | cons hstep hrest => exact cons hstep (ih hrest (List.pairwise_cons.mp hcommutes).2)
  | swap right left rest =>
      cases h with
      | cons hleft h =>
          cases h with
          | cons hright hrest =>
              have hpair := (List.pairwise_cons.mp hcommutes).1 right List.mem_cons_self
              obtain ⟨other, hright', hleft'⟩ := hpair.1 hleft hright
              exact cons hright' (cons hleft' hrest)
  | trans hfirst _ ih ih' =>
      exact ih' (ih h hcommutes) ((hfirst.pairwise_iff hsymm).mp hcommutes)

end Run

end TableHistory
