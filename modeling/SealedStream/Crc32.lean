import SealedStream.Bytes

/-!
# CRC-32

The reflected CRC-32 with polynomial `0xEDB88320`, register initially all ones and inverted at the
end. A `Hasher` takes its input in pieces; `Hasher.digest_update` and `Hasher.update_append` say
that only their concatenation counts.
-/

namespace SealedStream

namespace Crc32

def polynomial : UInt32 := 0xEDB88320

/-- One bit of division: the register moves down by one place, and a one that falls out at the
bottom puts the polynomial in. -/
def shift (register : UInt32) : UInt32 :=
  if register &&& 1 = 1 then (register >>> 1) ^^^ polynomial else register >>> 1

/-- One byte enters at the low end of the register and is divided out bit by bit. -/
def step (register : UInt32) (byte : UInt8) : UInt32 :=
  shift (shift (shift (shift (shift (shift (shift (shift (register ^^^ byte.toUInt32))))))))

def initial : UInt32 := 0xFFFFFFFF

def digest (bytes : Bytes) : UInt32 :=
  bytes.foldl step initial ^^^ 0xFFFFFFFF

end Crc32

/-- A checksum in progress, with the number of bytes that went into it. -/
structure Hasher where
  register : UInt32
  length : Nat
deriving DecidableEq

namespace Hasher

def empty : Hasher := ⟨Crc32.initial, 0⟩

def update (hasher : Hasher) (bytes : Bytes) : Hasher :=
  ⟨bytes.foldl Crc32.step hasher.register, hasher.length + bytes.length⟩

def digest (hasher : Hasher) : UInt32 :=
  hasher.register ^^^ 0xFFFFFFFF

@[simp] theorem update_append (hasher : Hasher) (xs ys : Bytes) :
    (hasher.update xs).update ys = hasher.update (xs ++ ys) := by
  simp [update, Nat.add_assoc]

@[simp] theorem digest_update (bytes : Bytes) : (empty.update bytes).digest = Crc32.digest bytes :=
  rfl

@[simp] theorem length_update (hasher : Hasher) (bytes : Bytes) :
    (hasher.update bytes).length = hasher.length + bytes.length :=
  rfl

end Hasher

end SealedStream
