import TableHistory.Proofs.Wire.Reading

namespace TableHistory.Wire.Form

-- From the form's zero on, a written value is read as the given one.
def ReadsBack {α : Type} (form : Form α) (levels : Nat) (value result : α) : Prop :=
  (form.write value).length < sizeLimit →
    ∀ rest, form.merge levels form.zero (form.write value ++ rest) = .ok (result, rest)

-- What comes back for a value that is written unless it is zero.
structure Restores {α : Type} (form : Form α) (levels : Nat) (back : α → α) : Prop where
  omitted : ∀ value, form.isZero value = true → back value = form.zero
  written : ∀ value, form.isZero value = false → form.ReadsBack levels value (back value)

section Varint

variable {α : Type} [DecidableEq α] {zero : α} {decode : Nat → α} {encode : α → Nat}

theorem ofVarint_readsBack (levels : Nat) (value : α) (hb : encode value < 2 ^ 64)
    (hd : decode (encode value) = value) :
    (ofVarint zero decode encode).ReadsBack levels value value := by
  intro _ rest
  have hread := Varint.read_write (encode value) rest hb
  simp only [ofVarint, hread, ok_bind, hd, pure_eq_ok]

theorem ofVarint_restores (levels : Nat) (hb : ∀ value, encode value < 2 ^ 64)
    (hd : ∀ value, decode (encode value) = value) :
    (ofVarint zero decode encode).Restores levels id where
  omitted := fun value h => by simpa [ofVarint] using h
  written := fun value _ => ofVarint_readsBack levels value (hb value) (hd value)

end Varint

theorem int64_decode (value : Int64) : (UInt64.ofNat value.toUInt64.toNat).toInt64 = value := by
  simp

-- Only the low half of the sign extension is read.
theorem int32_decode (value : Int32) :
    (UInt32.ofNat value.toInt64.toUInt64.toNat).toInt32 = value := by
  have hlow : (value.toBitVec.signExtend 64).setWidth 32 = value.toBitVec := by
    ext i hi
    have hwide : i < 64 := by omega
    simp [BitVec.getElem_signExtend, hi, hwide]
  apply Int32.toBitVec_inj.mp
  simpa using hlow

theorem int64_readsBack (levels : Nat) (value : Int64) : int64.ReadsBack levels value value :=
  ofVarint_readsBack levels value (UInt64.toNat_lt _) (int64_decode value)

theorem int64_restores (levels : Nat) : int64.Restores levels id :=
  ofVarint_restores levels (fun _ => UInt64.toNat_lt _) int64_decode

theorem int32_restores (levels : Nat) : int32.Restores levels id :=
  ofVarint_restores levels (fun _ => UInt64.toNat_lt _) int32_decode

theorem uint32_restores (levels : Nat) : uint32.Restores levels id :=
  ofVarint_restores levels
    (fun value => Nat.lt_trans value.toNat_lt (by decide)) fun _ => UInt32.ofNat_toNat

theorem bool_restores (levels : Nat) : bool.Restores levels id :=
  ofVarint_restores levels (fun value => by cases value <;> decide) fun value => by
    cases value <;> rfl

theorem blob_readsBack (levels : Nat) (value : Bytes) : blob.ReadsBack levels value value := by
  intro hs rest
  exact readBlob_writeDelimited value rest (length_lt_of_writeDelimited hs)

theorem text_readsBack (levels : Nat) (value : String) : text.ReadsBack levels value value := by
  intro hs rest
  have hread := readBlob_writeDelimited (Utf8.encode value) rest (length_lt_of_writeDelimited hs)
  simp only [text, hread, ok_bind, Utf8.decode?_encode, pure_eq_ok]

theorem text_restores (levels : Nat) : text.Restores levels id where
  omitted := fun value h => by simpa [text] using h
  written := fun value _ => text_readsBack levels value

theorem length_littleEndian (count number : Nat) : (littleEndian count number).length = count := by
  induction count generalizing number with
  | zero => rfl
  | succ count ih => rw [littleEndian, List.length_cons, ih]

theorem ofLittleEndian_littleEndian (count number : Nat) (h : number >>> (8 * count) = 0) :
    ofLittleEndian (littleEndian count number) = number := by
  induction count generalizing number with
  | zero =>
      have hz : number = 0 := h
      rw [hz]
      rfl
  | succ count ih =>
      have hlow : number / 256 = number >>> 8 := (Nat.shiftRight_eq_div_pow number 8).symm
      have hq : (number / 256) >>> (8 * count) = 0 := by
        rw [hlow, ← Nat.shiftRight_add, Nat.add_comm]
        exact h
      have hbyte : (UInt8.ofNat (number % 256)).toNat = number % 256 := by simp
      simp only [littleEndian, ofLittleEndian, ih _ hq, hbyte]
      omega

theorem double_readsBack (levels : Nat) (value : Double) : double.ReadsBack levels value value := by
  intro _ rest
  have hlen := length_littleEndian 8 value.bits.toNat
  have hshort : value.bits.toNat >>> (8 * 8) = 0 := by
    rw [Nat.shiftRight_eq_div_pow]
    exact Nat.div_eq_of_lt value.bits.toNat_lt
  have hbits := ofLittleEndian_littleEndian 8 value.bits.toNat hshort
  have hlong : ¬ (littleEndian 8 value.bits.toNat ++ rest).length < 8 := by
    rw [List.length_append]
    omega
  simp only [double, dropExact, if_neg hlong, ok_bind, List.take_left' hlen,
    List.drop_left' hlen, hbits, UInt64.ofNat_toNat, pure_eq_ok]

end TableHistory.Wire.Form

namespace TableHistory.Double

-- A double as it comes back from a map: zeros have no sign there.
def unsignZero (d : Double) : Double := if d.isZero then zero else d

end TableHistory.Double

namespace TableHistory.Wire.Form

theorem double_restores (levels : Nat) : double.Restores levels Double.unsignZero where
  omitted := fun value h => if_pos h
  written := fun value h => by
    have hback : value.unsignZero = value := if_neg (by simpa [double] using h)
    rw [hback]
    exact double_readsBack levels value

end TableHistory.Wire.Form
