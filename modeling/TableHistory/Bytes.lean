-- Powers of numbers are the core library's in every module, whatever else it imports.
attribute [default_instance 20000] instPowNat

namespace TableHistory

abbrev Bytes := List UInt8

namespace Utf8

-- The UTF-8 form of a text.
def encode (text : String) : Bytes := text.toUTF8.data.toList

-- Only UTF-8 is text.
def decode? (bytes : Bytes) : Option String := String.fromUTF8? ⟨bytes.toArray⟩

theorem decode?_encode (text : String) : decode? (encode text) = some text := by
  have hbytes : (⟨(encode text).toArray⟩ : ByteArray) = text.toByteArray := by
    simp only [encode, Array.toArray_toList, String.toUTF8_eq_toByteArray]
  unfold decode? String.fromUTF8?
  rw [hbytes, dif_pos text.isValidUTF8]
  rfl

end Utf8

end TableHistory
