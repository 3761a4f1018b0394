/-!
# Runs of bytes

A run of bytes is a list. Besides the list operations the format needs two more: the four bytes of a
32-bit word with the lowest first, and the cut of a run into blocks of one size, the last of which
may be shorter. `blocks_flatten` says that cutting loses nothing.
-/

namespace SealedStream

abbrev Bytes := List UInt8

namespace Bytes

/-- The bytes of a word, the lowest first. -/
def ofWord (word : UInt32) : Bytes :=
  [UInt8.ofNat word.toNat, UInt8.ofNat (word.toNat / 0x100), UInt8.ofNat (word.toNat / 0x10000),
    UInt8.ofNat (word.toNat / 0x1000000)]

/-- The word whose bytes are given, the lowest first. -/
def toWord (a b c d : UInt8) : UInt32 :=
  UInt32.ofNat (a.toNat + b.toNat * 0x100 + c.toNat * 0x10000 + d.toNat * 0x1000000)

theorem ofWord_toWord (a b c d : UInt8) : ofWord (toWord a b c d) = [a, b, c, d] := by
  have ha := a.toNat_lt
  have hb := b.toNat_lt
  have hc := c.toNat_lt
  have hd := d.toNat_lt
  simp only [ofWord, toWord, UInt32.toNat_ofNat', List.cons.injEq, and_true, ← UInt8.toNat_inj,
    UInt8.toNat_ofNat']
  omega

@[simp] theorem length_ofWord (word : UInt32) : (ofWord word).length = 4 := rfl

/-- A run of bytes cut into blocks of `size` bytes, with the rest as a shorter last block. A block
size of zero leaves one block. -/
def blocks (size : Nat) (bytes : Bytes) : List Bytes :=
  if bytes = [] then []
  else if size = 0 then [bytes]
  else bytes.take size :: blocks size (bytes.drop size)
termination_by bytes.length
decreasing_by
  rename_i nonempty positive
  have : 0 < bytes.length := List.length_pos_iff.mpr nonempty
  rw [List.length_drop]
  omega

theorem blocks_flatten (size : Nat) (bytes : Bytes) : (blocks size bytes).flatten = bytes := by
  fun_induction blocks size bytes with
  | case1 => rfl
  | case2 => simp
  | case3 bytes nonempty positive ih => simp [ih]

end Bytes

end SealedStream
