/-!
# Hexadecimal text

A number as a fixed count of lower-case hexadecimal digits, the highest first.
-/

namespace SealedStream.Hex

def digit (value : Nat) : Char :=
  if value < 10 then Char.ofNat (48 + value) else Char.ofNat (87 + value)

/-- The lowest `width` hexadecimal digits of `value`. -/
def digits : (width value : Nat) → List Char
  | 0, _ => []
  | width + 1, value => digits width (value / 16) ++ [digit (value % 16)]

def ofWord (word : UInt32) : String :=
  String.ofList (digits 8 word.toNat)

end SealedStream.Hex
