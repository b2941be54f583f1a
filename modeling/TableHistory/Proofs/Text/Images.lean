import TableHistory.Proofs.Text.Forms
import TableHistory.Text.Record

namespace TableHistory.Text

variable {α β γ δ σ τ : Type}

-- What the second reader reads is the image of what the first one reads. Their faults are the same,
-- and so is what they leave unread.
def Images (image : α → β) (read : Reader α) (other : Reader β) : Prop :=
  ∀ bytes, other bytes = Prod.map image id <$> read bytes

-- If two readers go on alike behind a value and behind its image, images are read in the end too.
theorem Images.bind {image : α → β} {read : Reader α} {other : Reader β}
    (h : Images image read other) {change : γ → δ} {next : α × Bytes → Except Fault γ}
    {next' : β × Bytes → Except Fault δ}
    (hnext : ∀ value rest, next' (image value, rest) = change <$> next (value, rest))
    (bytes : Bytes) : (other bytes >>= next') = change <$> (read bytes >>= next) := by
  rw [h bytes, bind_map_left, map_bind]
  refine bind_congr fun result => ?_
  exact hnext result.1 result.2

theorem readMembersFrom_images {member : String → σ → Reader σ} {other : String → τ → Reader τ}
    (image : σ → τ)
    (h : ∀ name state, Images image (member name state) (other name (image state)))
    (count : Nat) (first : Bool) (state : σ) :
    Images image (readMembersFrom member count first state)
      (readMembersFrom other count first (image state)) := by
  induction count generalizing first state with
  | zero => exact fun _ => rfl
  | succ count ih =>
      intro bytes
      unfold readMembersFrom
      rw [map_bind]
      refine bind_congr fun found => ?_
      cases found with
      | none => simp only [map_bind, map_pure, Prod.map_apply, id_eq]
      | some next =>
          dsimp only
          rw [map_bind]
          refine bind_congr fun named => ?_
          refine (h named.1 state).bind ?_ named.2
          intro state rest
          exact ih false state rest

namespace Form

-- Values of the second form stand for those of the first one, and they have the same texts.
structure ImagesBy (image : α → β) (form : Form α) (other : Form β) : Prop where
  read : Images image form.read other.read
  tree : ∀ value, other.tree (image value) = form.tree value

-- A closed set stands for another one if the names agree.
theorem ofNames_imagesBy {values : List α} {image : α → β} {nameOf : α → String}
    {otherName : β → String} (h : ∀ value, otherName (image value) = nameOf value) :
    (ofNames values nameOf).ImagesBy image (ofNames (values.map image) otherName) := by
  refine ⟨?_, fun value => congrArg Tree.text (h value)⟩
  intro bytes
  have hnamed : ∀ name, (values.map image).find? (fun value => otherName value = name) =
      (values.find? fun value => nameOf value = name).map image := by
    intro name
    rw [List.find?_map]
    simp only [Function.comp_def, h]
  simp only [ofNames, hnamed]
  cases skipBlank bytes with
  | nil => rfl
  | cons byte rest =>
      dsimp only
      split
      · simp only [map_bind]
        refine bind_congr fun named => ?_
        cases values.find? fun value => nameOf value = named.1 <;> rfl
      · split
        · simp only [map_bind]
          refine bind_congr fun found => ?_
          cases found with
          | none => rfl
          | some next =>
              simp only [map_bind, bind_assoc]
              refine bind_congr fun named => ?_
              cases values.find? fun value => nameOf value = named.1 with
              | none => rfl
              | some value =>
                  simp only [Option.map_some, pure_bind, map_pure, Prod.map_apply, id_eq]
        · rfl

namespace ImagesBy

variable {image : α → β} {form : Form α} {other : Form β}

theorem encode (h : form.ImagesBy image other) (value : α) :
    other.encode (image value) = form.encode value :=
  congrArg (Tree.write 0) (h.tree value)

theorem decode (h : form.ImagesBy image other) (bytes : Bytes) :
    other.decode bytes = image <$> form.decode bytes := by
  apply h.read.bind
  intro value rest
  dsimp only
  split <;> rfl

theorem restores (h : form.ImagesBy image other) {value : α} (hvalue : form.Restores value) :
    other.Restores (image value) where
  reads := by
    rw [h.tree]
    refine ⟨hvalue.reads.begins, ?_⟩
    intro depth bytes rest hb hrest
    rw [h.read, hvalue.reads.reads depth bytes rest hb hrest]
    rfl
  present := by
    rw [h.tree]
    exact hvalue.present

end ImagesBy

end Form

namespace Place

-- Places of one name whose values stand for each other, also where there is no member.
structure ImagesBy (image : α → β) (place : Place α) (other : Place β) : Prop where
  name : other.name = place.name
  absent : other.absent = place.absent.map image
  short : other.short = place.short.map image
  read : Images image place.read other.read
  tree : ∀ value, other.tree (image value) = place.tree value

theorem imagesBy_id (place : Place α) : place.ImagesBy id place where
  name := rfl
  absent := Option.map_id'.symm
  short := Option.map_id'.symm
  read := fun bytes => (id_map (place.read bytes)).symm
  tree := fun _ => rfl

theorem required_imagesBy {image : α → β} (name : String) {form : Form α} {other : Form β}
    (h : form.ImagesBy image other) : (required name form).ImagesBy image (required name other) :=
  ⟨rfl, rfl, rfl, h.read, fun value => congrArg some (h.tree value)⟩

end Place

namespace Places

-- Places one by one, with what becomes of drafts and of values.
inductive ImagesBy : {β γ : Type} → (places : Places β) → (others : Places γ) →
    (places.Draft → others.Draft) → (β → γ) → Prop
  | nil : ImagesBy nil nil id id
  | cons {α β γ δ : Type} {place : Place α} {other : Place δ} {places : Places β}
      {others : Places γ} {image : α → δ} {drafts : places.Draft → others.Draft} {values : β → γ}
      (hplace : place.ImagesBy image other) (hrest : ImagesBy places others drafts values) :
      ImagesBy (cons place places) (cons other others)
        (fun draft => (draft.1.map image, drafts draft.2)) (Prod.map image values)

theorem imagesBy_id (places : Places β) : places.ImagesBy places id id := by
  induction places with
  | nil => exact .nil
  | cons place places ih =>
      have hcons := ImagesBy.cons place.imagesBy_id ih
      have hdrafts : (fun draft : (cons place places).Draft =>
          (draft.1.map id, id draft.2)) = id := by
        funext draft
        rw [Option.map_id]
        rfl
      rw [hdrafts, Prod.map_id] at hcons
      exact hcons

namespace ImagesBy

variable {places : Places β} {others : Places γ} {drafts : places.Draft → others.Draft}
  {values : β → γ}

theorem blank (h : ImagesBy places others drafts values) : drafts places.blank = others.blank := by
  induction h with
  | nil => rfl
  | cons hplace hrest ih => exact congrArg (Prod.mk none) ih

theorem finish (h : ImagesBy places others drafts values) (draft : places.Draft) :
    others.finish (drafts draft) = values <$> places.finish draft := by
  induction h with
  | nil => rfl
  | @cons α β γ δ place other places others image drafts values hplace hrest ih =>
      obtain ⟨own, rest⟩ := draft
      have hown : (own.map image).or other.absent = (own.or place.absent).map image := by
        rw [hplace.absent]
        cases own <;> rfl
      simp only [Places.finish, hown]
      cases own.or place.absent with
      | none => rfl
      | some value =>
          simp only [Option.map_some, ih, map_bind, bind_map_left, map_pure, Prod.map_apply]

theorem readMember (h : ImagesBy places others drafts values) (name : String)
    (draft : places.Draft) :
    Images drafts (places.readMember name draft) (others.readMember name (drafts draft)) := by
  induction h with
  | nil =>
      intro bytes
      simp only [Places.readMember, map_bind, map_pure]
      rfl
  | @cons α β γ δ place other places others image drafts values hplace hrest ih =>
      intro bytes
      obtain ⟨own, rest⟩ := draft
      simp only [Places.readMember, hplace.name]
      split
      · cases own with
        | some value => rfl
        | none =>
            dsimp only [Option.map_none]
            rw [map_bind]
            refine bind_congr fun behind => ?_
            refine hplace.read.bind ?_ behind
            intro value behind
            rfl
      · refine (ih rest).bind ?_ bytes
        intro others behind
        rfl

theorem readValues (h : ImagesBy places others drafts values) (first : Bool) :
    Images values (places.readValues first) (others.readValues first) := by
  induction h generalizing first with
  | nil =>
      intro bytes
      simp only [Places.readValues, map_bind, map_pure]
      rfl
  | @cons α β γ δ place other places others image drafts values hplace hrest ih =>
      intro bytes
      simp only [Places.readValues, map_bind]
      refine bind_congr fun found => ?_
      cases found with
      | none =>
          simp only [hplace.short]
          cases place.short with
          | none => rfl
          | some value =>
              refine (ih first).bind ?_ bytes
              intro values behind
              rfl
      | some next =>
          refine hplace.read.bind ?_ next
          intro value behind
          refine (ih false).bind ?_ behind
          intro values behind
          rfl

theorem members (h : ImagesBy places others drafts values) (value : β) :
    others.members (values value) = places.members value := by
  induction h with
  | nil => rfl
  | @cons α β γ δ place other places others image drafts values hplace hrest ih =>
      simp only [Places.members, Prod.map_fst, Prod.map_snd, hplace.tree, hplace.name, ih]

-- Records whose places stand for each other do so as wholes, whether they are read from objects or
-- from lists.
theorem record (h : ImagesBy places others drafts values) {pack : β → σ} {unpack : σ → β}
    {pack' : γ → τ} {unpack' : τ → γ} {image : σ → τ}
    (hpack : ∀ value, pack' (values value) = image (pack value))
    (hunpack : ∀ record, unpack' (image record) = values (unpack record)) :
    (Form.record places pack unpack).ImagesBy image (Form.record others pack' unpack') := by
  refine ⟨?_, ?_⟩
  · intro bytes
    unfold Form.record readBy
    dsimp only
    cases skipBlank bytes with
    | nil => rfl
    | cons byte rest =>
        by_cases hobject : byte = openObject
        · have hmembers := readMembersFrom_images drafts (fun name => h.readMember name)
            (rest.length + 1) true places.blank
          rw [h.blank] at hmembers
          simp only [hobject, if_true, List.tail_cons, readMembers]
          refine hmembers.bind ?_ rest
          intro draft behind
          simp only [h.finish, map_bind, bind_map_left, map_pure, hpack, Prod.map_apply, id_eq]
        · by_cases hlist : byte = openList
          · have hne : ¬ openList = openObject := by decide
            simp only [hlist, hne, if_false, if_true, List.tail_cons]
            refine (h.readValues true).bind ?_ rest
            intro value behind
            simp only [map_pure, hpack, Prod.map_apply, id_eq]
          · simp only [hobject, hlist, if_false]
            rfl
  · intro record
    simp only [Form.record, hunpack, h.members]

end ImagesBy

end Places

end TableHistory.Text
