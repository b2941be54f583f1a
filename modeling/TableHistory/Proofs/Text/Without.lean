import TableHistory.Proofs.Text.Passing
import TableHistory.Text.Record

namespace TableHistory.Text

variable {α β γ σ τ : Type}

-- What every member does to a state, it does to the image of the state for another reader.
theorem readMembersFrom_image {member : String → σ → Reader σ} {other : String → τ → Reader τ}
    (image : σ → τ)
    (h : ∀ ⦃name state bytes next rest⦄, member name state bytes = .ok (next, rest) →
      other name (image state) bytes = .ok (image next, rest))
    {count : Nat} {first : Bool} {state last : σ} {bytes rest : Bytes}
    (hread : readMembersFrom member count first state bytes = .ok (last, rest)) :
    readMembersFrom other count first (image state) bytes = .ok (image last, rest) := by
  induction count generalizing first state bytes with
  | zero => cases hread
  | succ count ih =>
      obtain ⟨found, hnext, hread⟩ := bind_eq_ok.mp hread
      cases found with
      | none =>
          obtain ⟨behind, hclose, hread⟩ := bind_eq_ok.mp hread
          cases hread
          simp only [readMembersFrom, hnext, ok_bind, hclose, pure_eq_ok]
      | some next =>
          obtain ⟨⟨name, colon⟩, hname, hread⟩ := bind_eq_ok.mp hread
          obtain ⟨⟨changed, middle⟩, hmember, hrest⟩ := bind_eq_ok.mp hread
          simp only [readMembersFrom, hnext, ok_bind, hname, h hmember, ih hrest]

namespace Places

-- The places without one of them, and what is left of a draft and of the values then.
inductive Without (place : Place α) : {β γ : Type} → (whole : Places β) → (part : Places γ) →
    (whole.Draft → part.Draft) → (β → γ) → Prop
  | here {γ : Type} {rest : Places γ} (hname : place.name ∉ rest.names) :
      Without place (cons place rest) rest Prod.snd Prod.snd
  | behind {β γ δ : Type} {other : Place δ} {whole : Places β} {part : Places γ}
      {drafts : whole.Draft → part.Draft} {values : β → γ}
      (hrest : Without place whole part drafts values) :
      Without place (cons other whole) (cons other part)
        (fun draft => (draft.1, drafts draft.2)) (fun value => (value.1, values value.2))

theorem readMember_unknown {places : Places β} {name : String} (h : name ∉ places.names)
    (draft : places.Draft) {bytes value rest : Bytes} (hcolon : readColon bytes = .ok value)
    (hskip : skipValue value = .ok rest) :
    places.readMember name draft bytes = .ok (draft, rest) := by
  induction places with
  | nil =>
      simp only [readMember, hcolon, ok_bind, hskip, pure_eq_ok]
      rfl
  | cons place places ih =>
      obtain ⟨first, others⟩ := draft
      obtain ⟨hname, hrest⟩ := not_or.mp (mt List.mem_cons.mpr h)
      simp only [readMember, hname, if_false, ih hrest, ok_bind, pure_eq_ok]

namespace Without

variable {place : Place α} {whole : Places β} {part : Places γ}
  {drafts : whole.Draft → part.Draft} {values : β → γ}

theorem blank (h : Without place whole part drafts values) : drafts whole.blank = part.blank := by
  induction h with
  | here hname => rfl
  | @behind β γ δ other whole part drafts values hrest ih =>
      exact congrArg (Prod.mk none) ih

theorem finish (h : Without place whole part drafts values) {draft : whole.Draft} {value : β}
    (hfinish : whole.finish draft = .ok value) :
    part.finish (drafts draft) = .ok (values value) := by
  induction h with
  | here hname =>
      obtain ⟨first, others⟩ := draft
      simp only [Places.finish] at hfinish
      split at hfinish
      · cases hfinish
      · obtain ⟨rest, hrest, hvalue⟩ := bind_eq_ok.mp hfinish
        cases hvalue
        exact hrest
  | @behind β γ δ other whole part drafts values hrest ih =>
      obtain ⟨first, others⟩ := draft
      simp only [Places.finish] at hfinish ⊢
      split at hfinish
      · cases hfinish
      · obtain ⟨rest, hrest, hvalue⟩ := bind_eq_ok.mp hfinish
        cases hvalue
        simp only [ih hrest, ok_bind, pure_eq_ok]

-- The member of the place is skipped if what the place reads can be.
theorem readMember (h : Without place whole part drafts values) (hpasses : Passes place.read)
    {name : String} {old new : whole.Draft} {bytes rest : Bytes}
    (hread : whole.readMember name old bytes = .ok (new, rest)) :
    part.readMember name (drafts old) bytes = .ok (drafts new, rest) := by
  induction h with
  | @here γ others hname =>
      by_cases hown : name = place.name
      · simp only [Places.readMember, hown, if_true] at hread
        split at hread
        · cases hread
        · obtain ⟨value, hcolon, hread⟩ := bind_eq_ok.mp hread
          obtain ⟨⟨own, behind⟩, hown', hread⟩ := bind_eq_ok.mp hread
          cases hread
          rw [hown]
          exact readMember_unknown hname _ hcolon (hpasses hown').skipValue
      · simp only [Places.readMember, hown, if_false] at hread
        obtain ⟨⟨draft, behind⟩, hothers, hread⟩ := bind_eq_ok.mp hread
        cases hread
        exact hothers
  | @behind β γ δ other whole part drafts values hrest ih =>
      by_cases hother : name = other.name
      · simp only [Places.readMember, hother, if_true] at hread
        split at hread
        · cases hread
        · rename_i hnone
          obtain ⟨value, hcolon, hread⟩ := bind_eq_ok.mp hread
          obtain ⟨⟨own, behind⟩, hown, hread⟩ := bind_eq_ok.mp hread
          cases hread
          simp only [Places.readMember, hother, if_true, hnone, hcolon, ok_bind, hown, pure_eq_ok]
      · simp only [Places.readMember, hother, if_false] at hread
        obtain ⟨⟨draft, behind⟩, hothers, hread⟩ := bind_eq_ok.mp hread
        cases hread
        simp only [Places.readMember, hother, if_false, ih hothers, ok_bind, pure_eq_ok]

-- An object that is read as the whole record is read as the part of it.
theorem record (h : Without place whole part drafts values) (hpasses : Passes place.read)
    {σ τ : Type} {pack : β → σ} {unpack : σ → β} {pack' : γ → τ} {unpack' : τ → γ} {image : σ → τ}
    (himage : ∀ value, image (pack value) = pack' (values value))
    {bytes behind rest : Bytes} (hopen : skipBlank bytes = openObject :: behind) {value : σ}
    (hread : (Form.record whole pack unpack).read bytes = .ok (value, rest)) :
    (Form.record part pack' unpack').read bytes = .ok (image value, rest) := by
  obtain ⟨byte, body, read, hb, hchoose, hread⟩ := readBy_eq_ok hread
  rw [hopen] at hb
  cases hb
  rw [if_pos rfl] at hchoose
  cases hchoose
  obtain ⟨⟨draft, after⟩, hmembers, hread⟩ := bind_eq_ok.mp hread
  obtain ⟨record, hfinish, hvalue⟩ := bind_eq_ok.mp hread
  cases hvalue
  have hpart := readMembersFrom_image drafts (fun _ _ _ _ _ hm => h.readMember hpasses hm) hmembers
  rw [h.blank] at hpart
  refine (readBy_eq hopen rfl).trans ?_
  have hbody : readMembers (fun name => part.readMember name) part.blank behind =
      .ok (drafts draft, rest) := hpart
  simp only [List.tail_cons, hbody, ok_bind, h.finish hfinish, himage, pure_eq_ok]

end Without

end Places

end TableHistory.Text
