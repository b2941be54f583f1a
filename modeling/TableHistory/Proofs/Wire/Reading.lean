import TableHistory.Proofs.Result
import TableHistory.Proofs.Run
import TableHistory.Wire.Form

namespace TableHistory.Wire

-- The lengths that varints can hold end here.
def sizeLimit : Nat := 2 ^ 64

-- On a piece of bytes, whatever stands behind it, the reader takes one state to the other.
def Consumes {σ : Type} (field : σ → Reader σ) (piece : Bytes) (first next : σ) : Prop :=
  piece ≠ [] ∧ ∀ rest, field first (piece ++ rest) = .ok (next, rest)

variable {σ : Type} {field : σ → Reader σ}

theorem readFields_of_run {pieces : List Bytes} {first last : σ}
    (h : Run (Consumes field) pieces first last) (count : Nat) (rest : Bytes)
    (hc : pieces.length ≤ count) :
    readFields field rest.length count first (pieces.flatten ++ rest) = .ok (last, rest) := by
  induction h generalizing count with
  | nil =>
      cases count with
      | zero => rfl
      | succ count =>
          simp only [readFields, List.flatten_nil, List.nil_append, Nat.le_refl, if_true]
  | @cons piece pieces first next last hpiece _ ih =>
      cases count with
      | zero => simp at hc
      | succ count =>
          have hp := List.length_pos_iff.mpr hpiece.1
          have hlong : ¬ (piece ++ (pieces.flatten ++ rest)).length ≤ rest.length := by
            simp only [List.length_append]
            omega
          have hshort : pieces.length ≤ count := Nat.le_of_succ_le_succ hc
          rw [List.flatten_cons, List.append_assoc]
          unfold readFields
          rw [if_neg hlong, hpiece.2, ok_bind]
          exact ih count hshort

-- No piece is empty, so there are at most as many pieces as bytes.
theorem length_le_of_run {pieces : List Bytes} {first last : σ}
    (h : Run (Consumes field) pieces first last) : pieces.length ≤ pieces.flatten.length := by
  induction h with
  | nil => simp
  | cons hpiece _ ih =>
      have hp := List.length_pos_iff.mpr hpiece.1
      simp only [List.length_cons, List.flatten_cons, List.length_append]
      omega

-- What a run reads off the front of its bytes is its first step.
theorem exists_step_of_run {pieces : List Bytes} {first last : σ} {front rest : Bytes}
    (h : Run (Consumes field) pieces first last) (he : pieces.flatten = front ++ rest)
    (hne : front ≠ []) :
    ∃ piece others next, pieces = piece :: others ∧
      field first (front ++ rest) = .ok (next, others.flatten) ∧
      Run (Consumes field) others next last := by
  cases h with
  | nil => exact absurd (List.append_eq_nil_iff.mp he.symm).1 hne
  | @cons piece others _ next _ hstep hrest =>
      refine ⟨piece, others, next, rfl, ?_, hrest⟩
      rw [← he, List.flatten_cons]
      exact hstep.2 others.flatten

-- So a run whose bytes begin with those of a step begins with that step.
theorem run_behind_step {pieces : List Bytes} {piece rest : Bytes} {first next last : σ}
    (h : Run (Consumes field) pieces first last) (hstep : Consumes field piece first next)
    (he : pieces.flatten = piece ++ rest) :
    ∃ others, pieces = piece :: others ∧ others.flatten = rest ∧
      Run (Consumes field) others next last := by
  obtain ⟨piece', others, next', rfl, hread, hrest⟩ := exists_step_of_run h he hstep.1
  rw [hstep.2 rest] at hread
  cases hread
  rw [List.flatten_cons] at he
  rw [List.append_cancel_right he]
  exact ⟨others, rfl, rfl, hrest⟩

-- A run along the front of the bytes of another run is the front of that run.
theorem run_behind_run {front pieces : List Bytes} {first middle last : σ} {more : Bytes}
    (hfront : Run (Consumes field) front first middle)
    (h : Run (Consumes field) pieces first last) (he : pieces.flatten = front.flatten ++ more) :
    ∃ others, pieces = front ++ others ∧ others.flatten = more ∧
      Run (Consumes field) others middle last := by
  induction hfront generalizing pieces with
  | nil => exact ⟨pieces, rfl, he, h⟩
  | cons hstep _ ih =>
      rw [List.flatten_cons, List.append_assoc] at he
      obtain ⟨behind, rfl, hbehind, hrun⟩ := run_behind_step h hstep he
      obtain ⟨others, rfl, hothers, hrest⟩ := ih hrun hbehind
      exact ⟨others, rfl, hothers, hrest⟩

theorem eq_of_runs {pieces : List Bytes} {first left right : σ}
    (hl : Run (Consumes field) pieces first left)
    (hr : Run (Consumes field) pieces first right) : left = right := by
  obtain ⟨others, hpieces, _, hrest⟩ := run_behind_run hl hr (List.append_nil _).symm
  rw [List.self_eq_append_right.mp hpieces] at hrest
  exact Run.nil_iff.mp hrest

theorem read_length (bytes rest : Bytes) (hs : bytes.length < sizeLimit) :
    Varint.read (writeDelimited bytes ++ rest) = .ok (bytes.length, bytes ++ rest) := by
  unfold writeDelimited
  rw [List.append_assoc]
  exact Varint.read_write bytes.length (bytes ++ rest) hs

-- A length may be written in more bytes than it needs.
theorem readDelimited_of_length {pieces : List Bytes} {first last : σ} {bytes rest : Bytes}
    (h : Run (Consumes field) pieces first last)
    (hl : Varint.read bytes = .ok (pieces.flatten.length, pieces.flatten ++ rest)) :
    readDelimited field first bytes = .ok (last, rest) := by
  have hlength : (pieces.flatten ++ rest).length = pieces.flatten.length + rest.length :=
    List.length_append
  have hlong : ¬ (pieces.flatten ++ rest).length < pieces.flatten.length := by omega
  have hleft : (pieces.flatten ++ rest).length - pieces.flatten.length = rest.length := by omega
  have hcount : pieces.length ≤ (pieces.flatten ++ rest).length := by
    have := length_le_of_run h
    omega
  have hread := readFields_of_run h (pieces.flatten ++ rest).length rest hcount
  unfold readDelimited
  rw [hl, ok_bind]
  simp only [if_neg hlong, hleft, hread, ok_bind, if_true, pure_eq_ok]

theorem readDelimited_of_run {pieces : List Bytes} {first last : σ}
    (h : Run (Consumes field) pieces first last) (hs : pieces.flatten.length < sizeLimit)
    (rest : Bytes) :
    readDelimited field first (writeDelimited pieces.flatten ++ rest) = .ok (last, rest) :=
  readDelimited_of_length h (read_length pieces.flatten rest hs)

theorem readBlob_writeDelimited (bytes rest : Bytes) (hs : bytes.length < sizeLimit) :
    readBlob (writeDelimited bytes ++ rest) = .ok (bytes, rest) := by
  have hlong : ¬ (bytes ++ rest).length < bytes.length := by
    rw [List.length_append]
    omega
  unfold readBlob
  rw [read_length _ _ hs, ok_bind]
  simp only [if_neg hlong, List.take_left', List.drop_left', pure_eq_ok]

theorem length_lt_of_writeDelimited {bytes : Bytes} {limit : Nat}
    (h : (writeDelimited bytes).length < limit) : bytes.length < limit := by
  simp only [writeDelimited, List.length_append] at h
  omega

theorem Varint.write_ne_nil (number : Nat) : Varint.write number ≠ [] := by
  unfold Varint.write Varint.encode
  split <;> exact List.cons_ne_nil _ _

-- The tags that keys can hold.
def IsTag (tag : Nat) : Prop := 0 < tag ∧ tag < 2 ^ 29

instance (tag : Nat) : Decidable (IsTag tag) := inferInstanceAs (Decidable (_ ∧ _))

namespace Key

theorem ofCode_code (key : Key) (h : IsTag key.tag) : ofCode key.code = .ok key := by
  obtain ⟨hpos, htop⟩ := h
  have hcode := key.type.code_lt
  have hmod : key.code % 8 = key.type.code := by unfold code; omega
  have hdiv : key.code / 8 = key.tag := by unfold code; omega
  have hlow : ¬ 2 ^ 32 ≤ key.code := by unfold code; omega
  have hzero : ¬ key.tag = 0 := by omega
  simp only [ofCode, if_neg hlow, hmod, WireType.ofCode?_code, hdiv, if_neg hzero]

theorem read_write (key : Key) (rest : Bytes) (h : IsTag key.tag) :
    read (write key ++ rest) = .ok (key, rest) := by
  have hcode := key.type.code_lt
  have hlimit : key.code < 2 ^ 64 := by
    have := h.2
    unfold code
    omega
  unfold read write
  rw [Varint.read_write _ _ hlimit, ok_bind]
  simp only [ofCode_code key h, ok_bind, pure_eq_ok]

theorem write_ne_nil (key : Key) : write key ≠ [] := Varint.write_ne_nil _

end Key

-- A value of unknown tag is skipped as a whole.
theorem skip_writeDelimited (levels tag : Nat) (bytes rest : Bytes)
    (hs : bytes.length < sizeLimit) :
    skip (levels + 1) ⟨tag, .delimited⟩ (writeDelimited bytes ++ rest) = .ok rest := by
  have hlong : ¬ (bytes ++ rest).length < bytes.length := by
    rw [List.length_append]
    omega
  have hskip : skip (levels + 1) ⟨tag, .delimited⟩ (writeDelimited bytes ++ rest) =
      dropExact bytes.length (bytes ++ rest) := by
    simp only [skip, read_length _ _ hs, ok_bind]
  rw [hskip]
  simp only [dropExact, if_neg hlong, List.drop_left']

end TableHistory.Wire
