import TableHistory.Wire.Fault

namespace TableHistory.Wire.Varint

-- The number in at most the given count of bytes. The tenth byte of a number below 2 ^ 64 is at
-- most one.
def decode? : Nat → Bytes → Option (Nat × Bytes)
  | 0, _ => none
  | _ + 1, [] => none
  | 1, byte :: rest => if byte.toNat < 2 then some (byte.toNat, rest) else none
  | places + 2, byte :: rest =>
    if byte.toNat < 128 then some (byte.toNat, rest)
    else (decode? (places + 1) rest).map fun (high, rest) => (byte.toNat - 128 + 128 * high, rest)

def read : Reader Nat := fun bytes =>
  match decode? 10 bytes with
  | some result => .ok result
  | none => fail .badVarint

-- The bytes of a number with at most the given count of them. Each has seven bits, the lowest first,
-- and every byte but the last has its high bit set.
def encode : Nat → Nat → Bytes
  | 0, _ => []
  | places + 1, number =>
    if number < 128 then [UInt8.ofNat number]
    else UInt8.ofNat (number % 128 + 128) :: encode places (number / 128)

def write (number : Nat) : Bytes := encode 10 number

private theorem toNat_ofNat {number : Nat} (h : number < 256) :
    (UInt8.ofNat number).toNat = number := by
  simp [Nat.mod_eq_of_lt h]

-- The last byte holds a single bit, and each byte before it seven.
theorem decode?_encode (places number : Nat) (rest : Bytes) (hp : places < 10)
    (h : number >>> (7 * places) < 2) :
    decode? (places + 1) (encode (places + 1) number ++ rest) = some (number, rest) := by
  induction places generalizing number with
  | zero =>
      have hb : number < 2 := h
      simp only [encode, decode?, if_pos (show number < 128 by omega), List.cons_append,
        List.nil_append, toNat_ofNat (show number < 256 by omega), if_pos hb]
  | succ places ih =>
      unfold encode
      by_cases hs : number < 128
      · simp only [if_pos hs, List.cons_append, List.nil_append, decode?,
          toNat_ofNat (show number < 256 by omega)]
      · have hq : (number / 128) >>> (7 * places) < 2 := by
          rw [show number / 128 = number >>> 7 from (Nat.shiftRight_eq_div_pow number 7).symm,
            ← Nat.shiftRight_add, Nat.add_comm]
          exact h
        have hbyte := toNat_ofNat (show number % 128 + 128 < 256 by omega)
        simp only [if_neg hs, List.cons_append, decode?, hbyte,
          if_neg (show ¬ number % 128 + 128 < 128 by omega), ih (number / 128) (by omega) hq,
          Option.map_some, Option.some.injEq, Prod.mk.injEq, and_true]
        omega

theorem read_write (number : Nat) (rest : Bytes) (h : number < 2 ^ 64) :
    read (write number ++ rest) = .ok (number, rest) := by
  have hlast : number >>> (7 * 9) < 2 := by
    rw [Nat.shiftRight_eq_div_pow]
    omega
  simp only [read, write, decode?_encode 9 number rest (by decide) hlast]

end TableHistory.Wire.Varint
