import SealedStream.Checksum

/-!
# Chunks

A chunk as the chunk stream hands it out: its payload, the logical offset of the first payload byte
and the checksum from its header.
-/

namespace SealedStream

structure Chunk where
  data : Bytes
  offset : Nat
  checksum : Checksum
deriving DecidableEq

namespace Chunk

/-- The chunk of a payload, with the payload's checksum. -/
def ofData (data : Bytes) (offset : Nat) : Chunk :=
  ⟨data, offset, .of data⟩

def length (chunk : Chunk) : Nat :=
  chunk.data.length

/-- The length with the header. -/
def encodedLength (chunk : Chunk) : Nat :=
  Layout.headerLength + chunk.length

/-- The logical offset just past the chunk. -/
def stop (chunk : Chunk) : Checked Nat :=
  Checked.add chunk.offset chunk.length

def encoded (chunk : Chunk) : Bytes :=
  chunk.checksum.header ++ chunk.data

def describe (chunk : Chunk) : String :=
  "Chunk(" ++ toString chunk.length ++ " bytes @ " ++ toString chunk.offset ++ ", crc=" ++
    chunk.checksum.hex ++ ")"

@[simp] theorem length_encoded (chunk : Chunk) : chunk.encoded.length = chunk.encodedLength := by
  simp [encoded, encodedLength, length]

end Chunk

end SealedStream
