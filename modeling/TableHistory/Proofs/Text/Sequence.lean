import TableHistory.Proofs.Text.Quoted
import TableHistory.Proofs.Text.Spread
import TableHistory.Text.Tree

namespace TableHistory.Text

variable {α σ : Type}

theorem blank_newline (depth : Nat) : Blank (Tree.newline depth) := by
  intro byte hb
  rcases List.mem_cons.mp hb with rfl | hb
  · decide
  · rw [(List.mem_replicate.mp hb).2]
    decide

-- However deep a tree is written, it begins with a byte that is neither a blank nor the end of a
-- list.
def Tree.Begins (tree : Tree) : Prop :=
  ∀ depth, ∃ byte rest, tree.write depth = byte :: rest ∧ isBlank byte = false ∧ byte ≠ closeList

theorem Tree.list_head (trees : List Tree) (depth : Nat) :
    ∃ body, (list trees).write depth = openList :: body := by
  cases trees <;> exact ⟨_, rfl⟩

theorem Tree.object_head (entries : List (String × Tree)) (depth : Nat) :
    ∃ body, (object entries).write depth = openObject :: body := by
  cases entries <;> exact ⟨_, rfl⟩

theorem Tree.begins_object (entries : List (String × Tree)) : (object entries).Begins := by
  intro depth
  obtain ⟨body, he⟩ := object_head entries depth
  exact ⟨openObject, body, he, by decide⟩

-- The reader takes the written tree as the value, behind any blanks and in front of anything that
-- does not go on with a number.
structure Reads (read : Reader α) (tree : Tree) (value : α) : Prop where
  begins : tree.Begins
  reads : ∀ depth bytes rest, skipBlank bytes = tree.write depth ++ rest → Number.Ended rest →
    read bytes = .ok (value, rest)

theorem Reads.takes {read : Reader α} {tree : Tree} {value : α} (h : Reads read tree value)
    (depth : Nat) : Takes read (tree.write depth) value :=
  ⟨h.begins depth, h.reads depth⟩

theorem behind_writeElements (depth closing : Nat) (trees : List Tree) :
    Behind .list (trees.map (Tree.write depth))
      (Tree.writeElements depth trees ++ (Tree.newline closing ++ [closeList])) := by
  induction trees with
  | nil => exact .close (blank_newline closing)
  | cons tree trees ih =>
      have hnext : Behind .list (tree.write depth :: trees.map (Tree.write depth)) _ :=
        .next Blank.nil (blank_newline depth) ih
      simp only [Tree.writeElements, List.cons_append, List.append_assoc]
      exact hnext

theorem spread_list (depth : Nat) (trees : List Tree) :
    ∃ body, (Tree.list trees).write depth = openList :: body ∧
      Spread .list (trees.map (Tree.write (depth + 1))) body := by
  cases trees with
  | nil => exact ⟨[closeList], rfl, .empty Blank.nil⟩
  | cons tree trees =>
      refine ⟨_, ?_, .first (blank_newline (depth + 1))
        (behind_writeElements (depth + 1) depth trees)⟩
      simp only [Tree.write, List.cons_append, List.append_assoc]

-- A member as it is written.
def Named.written (depth : Nat) (entry : String × Tree) : Named where
  name := entry.1
  spelling := Quoted.behindQuote entry.1
  spells := Quoted.spells_behindQuote entry.1
  gap := []
  gap_blank := Blank.nil
  margin := [ascii ' ']
  margin_blank := by decide
  value := entry.2.write depth

theorem Named.bytes_written (depth : Nat) (entry : String × Tree) (rest : Bytes) :
    (written depth entry).bytes ++ rest =
      Quoted.write entry.1 ++ colon :: ascii ' ' :: (entry.2.write depth ++ rest) := by
  simp only [bytes, Spaced.bytes, Spaced.behindName, written, Quoted.write_eq, List.nil_append,
    List.cons_append, List.append_assoc]

theorem behind_writeMembers (depth closing : Nat) (entries : List (String × Tree)) :
    Behind .object ((entries.map (Named.written depth)).map Named.bytes)
      (Tree.writeMembers depth entries ++ (Tree.newline closing ++ [closeObject])) := by
  induction entries with
  | nil => exact .close (blank_newline closing)
  | cons entry entries ih =>
      have hnext : Behind .object ((Named.written depth entry).bytes ::
          (entries.map (Named.written depth)).map Named.bytes) _ :=
        .next Blank.nil (blank_newline depth) ih
      rw [Named.bytes_written] at hnext
      simp only [Tree.writeMembers, List.cons_append, List.append_assoc]
      exact hnext

theorem spread_object (depth : Nat) (entries : List (String × Tree)) :
    ∃ body, (Tree.object entries).write depth = openObject :: body ∧
      Spread .object ((entries.map (Named.written (depth + 1))).map Named.bytes) body := by
  cases entries with
  | nil => exact ⟨[closeObject], rfl, .empty Blank.nil⟩
  | cons entry entries =>
      refine ⟨_, ?_, .first (blank_newline (depth + 1))
        (behind_writeMembers (depth + 1) depth entries)⟩
      simp only [Named.bytes_written, Tree.write, List.cons_append, List.append_assoc]

-- What a member does to the state, from its colon on.
def Member (member : String → σ → Reader σ) (entry : String × Tree) (old new : σ) : Prop :=
  ∀ depth rest, Number.Ended rest →
    member entry.1 old (colon :: ascii ' ' :: (entry.2.write depth ++ rest)) = .ok (new, rest)

theorem named_run {member : String → σ → Reader σ} {entries : List (String × Tree)} {old new : σ}
    (h : Run (Member member) entries old new) (depth : Nat) :
    Run (NamedStep member) (entries.map (Named.written depth)) old new :=
  h.map _ id fun _ _ _ _ hstep => hstep depth

end TableHistory.Text
