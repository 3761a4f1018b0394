import SealedStream.Checked

/-!
# Layout of an encoded stream

An encoded stream is a row of chunks. Each chunk holds a header of four bytes and a payload of up to
65532, so that a full chunk takes 65536 bytes; only the last chunk of a stream may be shorter. The
functions here convert between logical sizes and offsets (payload bytes alone) and encoded ones
(headers included).
-/

namespace SealedStream.Layout

/-- A full chunk takes two to this power bytes. -/
def chunkBits : Nat := 16

def headerLength : Nat := 4

def chunkLength : Nat := 65536

/-- The payload of a full chunk. -/
def payloadLength : Nat := 65532

theorem chunkLength_eq : chunkLength = 1 <<< chunkBits := rfl

theorem headerLength_add_payloadLength : headerLength + payloadLength = chunkLength := rfl

/-- How many pieces of one size hold `total` bytes, the last of them perhaps partly. -/
def pieceCount (total size : Nat) : Nat :=
  if total % size = 0 then total / size else total / size + 1

/-- The number of chunks that hold `logical` bytes. -/
def chunkCount (logical : Nat) : Nat :=
  pieceCount logical payloadLength

/-- The chunk that holds the logical offset. -/
def chunkIndex (offset : Nat) : Nat :=
  offset / payloadLength

/-- The position of the logical offset within the payload of its chunk. -/
def offsetInChunk (offset : Nat) : Nat :=
  offset % payloadLength

/-- The encoded offset of a chunk. Bits above the sixty-fourth are lost. -/
def chunkStart (index : Nat) : Nat :=
  (index <<< chunkBits) % offsetLimit

/-- The encoded size of `logical` bytes. -/
def encodedSize (logical : Nat) : Checked Nat :=
  Checked.add logical (headerLength * chunkCount logical)

/-- The logical size of a stream that takes `encoded` bytes. It stops for the sizes at which the
headers would take more bytes than there are. -/
def logicalSize (encoded : Nat) : Checked Nat :=
  Checked.sub encoded (headerLength * pieceCount encoded chunkLength)

end SealedStream.Layout
