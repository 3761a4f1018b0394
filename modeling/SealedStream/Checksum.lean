import SealedStream.Crc32
import SealedStream.Hex
import SealedStream.Layout

/-!
# Checksums and their headers

A chunk's header is the CRC-32 of its payload, the lowest byte first. `ofHeader?_header` says that
reading a header gives back the checksum that was written.
-/

namespace SealedStream

structure Checksum where
  value : UInt32
deriving DecidableEq

namespace Checksum

def of (payload : Bytes) : Checksum :=
  ⟨Crc32.digest payload⟩

/-- The four header bytes. -/
def header (sum : Checksum) : Bytes :=
  Bytes.ofWord sum.value

/-- The checksum that the first four bytes of a chunk hold. -/
def ofHeader? : Bytes → Option Checksum
  | a :: b :: c :: d :: _ => some ⟨Bytes.toWord a b c d⟩
  | _ => none

/-- The chunk with its header replaced. -/
def writeHeader (sum : Checksum) (chunk : Bytes) : Checked Bytes :=
  if Layout.headerLength ≤ chunk.length then .ok (sum.header ++ chunk.drop Layout.headerLength)
  else .error .outOfBounds

def hex (sum : Checksum) : String :=
  Hex.ofWord sum.value

/-- Checksums are ordered as numbers. -/
instance : Ord Checksum :=
  ⟨fun a b => compare a.value b.value⟩

@[simp] theorem length_header (sum : Checksum) : sum.header.length = Layout.headerLength := rfl

theorem toWord_ofWord (word : UInt32) :
    Bytes.toWord (UInt8.ofNat word.toNat) (UInt8.ofNat (word.toNat / 0x100))
      (UInt8.ofNat (word.toNat / 0x10000)) (UInt8.ofNat (word.toNat / 0x1000000)) = word := by
  have hw := word.toNat_lt
  simp only [Bytes.toWord, ← UInt32.toNat_inj, UInt32.toNat_ofNat', UInt8.toNat_ofNat']
  omega

@[simp] theorem ofHeader?_header (sum : Checksum) (rest : Bytes) :
    ofHeader? (sum.header ++ rest) = some sum := by
  exact congrArg (some ∘ Checksum.mk) (toWord_ofWord sum.value)

/-- The chunks that hold a checksum are those that start with its header. -/
theorem ofHeader?_eq_some_iff {chunk : Bytes} {sum : Checksum} :
    ofHeader? chunk = some sum ↔ ∃ rest, chunk = sum.header ++ rest := by
  constructor
  · intro found
    unfold ofHeader? at found
    split at found
    next a b c d rest =>
      cases found
      refine ⟨rest, ?_⟩
      show a :: b :: c :: d :: rest = Bytes.ofWord (Bytes.toWord a b c d) ++ rest
      rw [Bytes.ofWord_toWord]
      rfl
    next => cases found
  · rintro ⟨rest, rfl⟩
    exact ofHeader?_header sum rest

end Checksum

end SealedStream
