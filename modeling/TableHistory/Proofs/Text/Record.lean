import TableHistory.Proofs.Text.Skip
import TableHistory.Text.Record

namespace TableHistory.Text

variable {α β γ : Type}

namespace Places

-- The members, in the order of the places, make the values. Each is read by the place of its name,
-- and what is left behind the last place is skipped.
inductive Fills : {β : Type} → Places β → List (String × Tree) → β → Prop
  | skipped {entries : List (String × Tree)} (h : ∀ entry ∈ entries, entry.2.Skips) :
      Fills .nil entries ()
  | present {α β : Type} {place : Place α} {rest : Places β} {tree : Tree}
      {entries : List (String × Tree)} {value : α} {values : β}
      (hread : Reads place.read tree value) (hname : place.name ∉ entries.map Prod.fst)
      (hrest : Fills rest entries values) :
      Fills (.cons place rest) ((place.name, tree) :: entries) (value, values)
  | absent {α β : Type} {place : Place α} {rest : Places β} {entries : List (String × Tree)}
      {value : α} {values : β} (hvalue : place.absent = some value)
      (hname : place.name ∉ entries.map Prod.fst) (hrest : Fills rest entries values) :
      Fills (.cons place rest) entries (value, values)

theorem skipped_named {member : Named} (h : Skippable Number.Ended member.value) :
    NamedStep (fun name => Places.nil.readMember name) member () () := by
  intro rest hr
  have hvalue := member.skipBlank_value h.begins rest
  have hskip := h.skipValue hvalue hr
  have hcolon := member.readColon rest
  simp only [Named.behindName, readMember, hcolon, ok_bind, hskip, pure_eq_ok]

theorem own_named {place : Place α} {rest : Places β} {member : Named} {value : α}
    (hname : member.name = place.name) (h : Takes place.read member.value value)
    (draft : rest.Draft) :
    NamedStep (fun name => (cons place rest).readMember name) member (none, draft)
      (some value, draft) := by
  intro behind hr
  have hvalue := h.behind member.margin_blank hr
  have hcolon := member.readColon behind
  simp only [Named.behindName, readMember, hname, if_true, hcolon, ok_bind, hvalue, pure_eq_ok]

theorem other_named {place : Place α} {rest : Places β} {member : Named} {old new : rest.Draft}
    (hname : member.name ≠ place.name) (value : Option α)
    (h : NamedStep (fun name => rest.readMember name) member old new) :
    NamedStep (fun name => (cons place rest).readMember name) member (value, old) (value, new) := by
  intro behind hr
  simp only [readMember, hname, if_false, h behind hr, ok_bind, pure_eq_ok]

theorem skipped_step {entry : String × Tree} (h : entry.2.Skips) :
    Member (fun name => Places.nil.readMember name) entry () () := by
  intro depth
  have hskippable : Skippable Number.Ended (Named.written depth entry).value := h.skippable depth _
  exact skipped_named hskippable

theorem own_step {place : Place α} {rest : Places β} {tree : Tree} {value : α}
    (h : Reads place.read tree value) (draft : rest.Draft) :
    Member (fun name => (cons place rest).readMember name) (place.name, tree)
      (none, draft) (some value, draft) := by
  intro depth
  have htakes : Takes place.read (Named.written depth (place.name, tree)).value value :=
    h.takes depth
  exact own_named rfl htakes draft

theorem other_step {place : Place α} {rest : Places β} {entry : String × Tree}
    {old new : rest.Draft} (hname : place.name ≠ entry.1) (value : Option α)
    (h : Member (fun name => rest.readMember name) entry old new) :
    Member (fun name => (cons place rest).readMember name) entry (value, old) (value, new) := by
  intro depth
  have hstep : NamedStep (fun name => rest.readMember name) (Named.written depth entry) old new :=
    h depth
  exact other_named (Ne.symm hname) value hstep

theorem other_run {place : Place α} {rest : Places β} {entries : List (String × Tree)}
    {old new : rest.Draft} (hname : place.name ∉ entries.map Prod.fst) (value : Option α)
    (h : Run (Member fun name => rest.readMember name) entries old new) :
    Run (Member fun name => (cons place rest).readMember name) entries (value, old)
      (value, new) := by
  apply h.mapState fun draft => (value, draft)
  intro entry hm old new hstep
  have hne : place.name ≠ entry.1 := fun he => hname (he ▸ List.mem_map_of_mem hm)
  exact other_step hne value hstep

theorem Fills.run {places : Places β} {entries : List (String × Tree)} {values : β}
    (h : places.Fills entries values) :
    ∃ draft, Run (Member fun name => places.readMember name) entries places.blank draft ∧
      places.finish draft = .ok values := by
  induction h with
  | skipped h => exact ⟨(), .still fun entry he => skipped_step (h entry he), rfl⟩
  | @present α β place rest tree entries value values hread hname _ ih =>
      obtain ⟨draft, hrun, hfinish⟩ := ih
      have hrest := other_run hname (some value) hrun
      refine ⟨(some value, draft), .cons (own_step hread rest.blank) hrest, ?_⟩
      simp only [finish, Option.some_or, hfinish, ok_bind, pure_eq_ok]
  | @absent α β place rest entries value values hvalue hname _ ih =>
      obtain ⟨draft, hrun, hfinish⟩ := ih
      refine ⟨(none, draft), other_run hname none hrun, ?_⟩
      simp only [finish, Option.none_or, hvalue, hfinish, ok_bind, pure_eq_ok]

end Places

namespace Place

-- What the place writes for the value is read as it, and where nothing is written, the value is the
-- one of a member that is not there.
def Restores (place : Place α) (value : α) : Prop :=
  match place.tree value with
  | some tree => Reads place.read tree value
  | none => place.absent = some value

theorem defaulted_restores {name : String} {form : Form α} {value : α} (zero : α)
    (h : form.Restores value) : (defaulted name zero form).Restores value :=
  h.reads

theorem required_restores {name : String} {form : Form α} {value : α} (h : form.Restores value) :
    (required name form).Restores value :=
  h.reads

theorem optional_restores {name : String} {form : Form α} {value : Option α}
    (h : ∀ present ∈ value, form.Restores present) : (optional name form).Restores value := by
  cases value with
  | none => exact rfl
  | some value => exact Form.optional_reads h

end Place

namespace Places

def Restores : {β : Type} → Places β → β → Prop
  | _, nil, () => True
  | _, cons place rest, (value, values) => place.Restores value ∧ rest.Restores values

theorem mem_names_of_mem_members {places : Places β} {values : β} {name : String}
    (h : name ∈ (places.members values).map Prod.fst) : name ∈ places.names := by
  induction places with
  | nil => exact h
  | cons place rest ih =>
      obtain ⟨value, values⟩ := values
      cases htree : place.tree value with
      | none =>
          simp only [members, htree] at h
          exact List.mem_cons_of_mem _ (ih h)
      | some tree =>
          simp only [members, htree, List.map_cons, List.mem_cons] at h
          exact List.mem_cons.mpr (h.imp_right ih)

-- Places of different names are filled by the members that they write.
theorem fills {places : Places β} {values : β} (h : places.Restores values)
    (hn : places.names.Nodup) : places.Fills (places.members values) values := by
  induction places with
  | nil => exact .skipped (by simp [members])
  | cons place rest ih =>
      obtain ⟨value, values⟩ := values
      obtain ⟨hplace, hrest⟩ := h
      obtain ⟨hname, hn⟩ := List.nodup_cons.mp hn
      have hfresh : place.name ∉ (rest.members values).map Prod.fst :=
        fun hm => hname (mem_names_of_mem_members hm)
      unfold Place.Restores at hplace
      cases htree : place.tree value with
      | none =>
          simp only [htree] at hplace
          simp only [members, htree]
          exact .absent hplace hfresh (ih hrest hn)
      | some tree =>
          simp only [htree] at hplace
          simp only [members, htree]
          exact .present hplace hfresh (ih hrest hn)

end Places

-- A record is what the run along the members of an object leaves in its places.
theorem Form.record_takes {places : Places β} {members : List Named} {bytes : Bytes}
    {draft : places.Draft} {values : β} (pack : β → α) (unpack : α → β)
    (hs : Spread .object (members.map Named.bytes) bytes)
    (hrun : Run (NamedStep fun name => places.readMember name) members places.blank draft)
    (hfinish : places.finish draft = .ok values) :
    Takes (record places pack unpack).read (openObject :: bytes) (pack values) := by
  refine .readBy (by decide) rfl fun rest _ => ?_
  have hread := readMembers_spread hs hrun rest
  simp only [List.tail_cons, hread, ok_bind, hfinish, pure_eq_ok]

-- A record is read from any object whose members fill its places.
theorem Form.record_reads {places : Places β} {entries : List (String × Tree)} {values : β}
    (pack : β → α) (unpack : α → β) (h : places.Fills entries values) :
    Reads (record places pack unpack).read (.object entries) (pack values) := by
  obtain ⟨draft, hrun, hfinish⟩ := h.run
  apply Reads.of_takes
  intro depth
  obtain ⟨body, he, hspread⟩ := spread_object depth entries
  rw [he]
  exact record_takes pack unpack hspread (named_run hrun (depth + 1)) hfinish

theorem Form.record_restores {places : Places β} {pack : β → α} {unpack : α → β} {value : α}
    (hpack : pack (unpack value) = value) (h : places.Restores (unpack value))
    (hn : places.names.Nodup) : (record places pack unpack).Restores value where
  reads := by
    have hread := record_reads pack unpack (Places.fills h hn)
    rwa [hpack] at hread
  present := by
    intro depth
    obtain ⟨body, he⟩ := Tree.object_head (places.members (unpack value)) depth
    exact not_null_of_head he (by decide)

end TableHistory.Text
