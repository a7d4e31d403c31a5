/-!
Byte strings, and the forms of their bytes that texts use.
-/

namespace StackBridge

/-- A byte string. -/
abbrev Bytes := List UInt8

/-- The UTF-8 bytes of a text. -/
def utf8 (s : String) : Bytes := s.toList.flatMap String.utf8EncodeChar

theorem utf8_append (s t : String) : utf8 (s ++ t) = utf8 s ++ utf8 t := by
  unfold utf8
  rw [String.toList_append, List.flatMap_append]

namespace Bytes

/-- The bytes before the first zero byte. -/
def beforeZero (b : Bytes) : Bytes := b.takeWhile (· != 0)

/-- The bytes of `n`, least significant first, in `width` bytes. -/
def ofNatLittle (width n : Nat) : Bytes :=
  (List.range width).map fun i => UInt8.ofNat (n / Nat.pow 256 i % 256)

end Bytes

/-- A hexadecimal digit in lower case. -/
def hexDigit (n : Nat) : Char := Nat.digitChar (n % 16)

/-- A number in hexadecimal, padded with zeros to a width. -/
def hexPadded (width n : Nat) : List Char :=
  (List.range width).reverse.map fun i => hexDigit (n / Nat.pow 16 i)

/-- The bytes in hexadecimal. -/
def Bytes.hex (b : Bytes) : String := String.ofList (b.flatMap fun x => hexPadded 2 x.toNat)

end StackBridge
