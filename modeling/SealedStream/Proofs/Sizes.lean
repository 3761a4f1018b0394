import SealedStream.Store.Placement

/-!
# Sizes of encoded streams

`encodedLength` is the encoded size as a number without an upper bound; the checked sizes of the
layout are this number whenever it is an offset. A logical size splits at a chunk boundary, and the
encoded size splits with it: `encodedLength_suffix` is what lets a reader start at any chunk.
-/
namespace SealedStream.Layout

/-- Counting pieces is division rounded up. -/
theorem pieceCount_eq_div (total size : Nat) (positive : 0 < size) :
    pieceCount total size = (total + (size - 1)) / size := by
  have division := Nat.div_add_mod total size
  have small := Nat.mod_lt total positive
  have rounded : (total + (size - 1)) / size = total / size + (total % size + (size - 1)) / size := by
    rw [← Nat.mul_add_div positive]
    congr 1
    omega
  unfold pieceCount
  -- What is over either fills no piece, or makes one more that is not full.
  split
  next exact =>
    have none : (size - 1) / size = 0 := Nat.div_eq_of_lt (by omega)
    rw [rounded, exact, Nat.zero_add, none, Nat.add_zero]
  next =>
    have shifted : total % size + (size - 1) = (total % size - 1) + size := by omega
    have none : (total % size - 1) / size = 0 := Nat.div_eq_of_lt (by omega)
    rw [rounded, shifted, Nat.add_div_right _ positive, none]

theorem chunkCount_eq_div (logical : Nat) : chunkCount logical = (logical + 65531) / 65532 :=
  pieceCount_eq_div logical payloadLength (by decide)

/-- The encoded size of `logical` bytes, however large. -/
def encodedLength (logical : Nat) : Nat :=
  logical + headerLength * chunkCount logical

@[simp] theorem encodedLength_zero : encodedLength 0 = 0 := rfl

theorem encodedLength_of_le (logical : Nat) (positive : 0 < logical)
    (small : logical ≤ payloadLength) : encodedLength logical = headerLength + logical := by
  simp only [encodedLength, chunkCount_eq_div, payloadLength, headerLength] at *
  omega

theorem encodedLength_full (chunks : Nat) :
    encodedLength (payloadLength * chunks) = chunkLength * chunks := by
  simp only [encodedLength, chunkCount_eq_div, payloadLength, chunkLength, headerLength]
  omega

/-- The sizes of whole chunks and of what follows them add up. -/
theorem encodedLength_add (chunks rest : Nat) :
    encodedLength (payloadLength * chunks + rest) = chunkLength * chunks + encodedLength rest := by
  simp only [encodedLength, chunkCount_eq_div, payloadLength, chunkLength, headerLength]
  omega

/-- Behind the first chunk there is no more than what the rest of the stream takes. -/
theorem encodedLength_le_behind (logical : Nat) :
    encodedLength logical ≤ chunkLength + encodedLength (logical - payloadLength) := by
  simp only [encodedLength, chunkCount_eq_div, payloadLength, chunkLength, headerLength]
  omega

/-- The first chunk of a stream and what the rest of the stream takes. -/
theorem encodedLength_first (logical : Nat) (positive : 0 < logical) :
    encodedLength logical = headerLength + min logical payloadLength +
      encodedLength (logical - min logical payloadLength) := by
  simp only [encodedLength, chunkCount_eq_div, payloadLength, headerLength]
  omega

theorem encodedLength_mono {small large : Nat} (le : small ≤ large) :
    encodedLength small ≤ encodedLength large := by
  simp only [encodedLength, chunkCount_eq_div, headerLength]
  omega

theorem le_encodedLength (logical : Nat) : logical ≤ encodedLength logical :=
  Nat.le_add_right _ _

theorem offset_split (offset : Nat) :
    offset = payloadLength * chunkIndex offset + offsetInChunk offset := by
  simp only [chunkIndex, offsetInChunk, payloadLength]
  omega

theorem offsetInChunk_lt (offset : Nat) : offsetInChunk offset < payloadLength :=
  Nat.mod_lt _ (by decide)

/-- The stream behind the chunk of an offset takes what the whole stream takes less the chunks
before. -/
theorem encodedLength_suffix (offset size : Nat) (inside : offset ≤ size) :
    encodedLength size =
      chunkLength * chunkIndex offset + encodedLength (size - payloadLength * chunkIndex offset) := by
  rw [← encodedLength_add]
  congr 1
  have split := offset_split offset
  omega

/-- What is added to a stream first fills its last chunk, which takes no further header. -/
theorem encodedLength_extend (size count : Nat) (partial_chunk : offsetInChunk size ≠ 0) :
    encodedLength (size + count) =
      encodedLength size + min (payloadLength - offsetInChunk size) count +
        encodedLength (count - min (payloadLength - offsetInChunk size) count) := by
  simp only [encodedLength, chunkCount_eq_div, offsetInChunk, payloadLength, headerLength] at *
  omega

/-- Behind whole chunks, sizes add up. -/
theorem encodedLength_extend_aligned (size count : Nat) (aligned : offsetInChunk size = 0) :
    encodedLength (size + count) = encodedLength size + encodedLength count := by
  simp only [encodedLength, chunkCount_eq_div, offsetInChunk, payloadLength, headerLength] at *
  omega

/-- The last chunk, if it is not full, ends the stream. -/
theorem encodedLength_last (size : Nat) (partial_chunk : offsetInChunk size ≠ 0) :
    encodedLength size =
      chunkLength * chunkIndex size + (headerLength + offsetInChunk size) := by
  have split := offset_split size
  have small := offsetInChunk_lt size
  rw [encodedLength_suffix size size (Nat.le_refl _)]
  congr 1
  have rest : size - payloadLength * chunkIndex size = offsetInChunk size := by omega
  rw [rest, encodedLength_of_le _ (Nat.pos_of_ne_zero partial_chunk) (Nat.le_of_lt small)]

/-- The number of chunks that lie below the offset limit. -/
def chunkLimit : Nat := offsetLimit / chunkLength

/-- The payload bytes of all chunks below the offset limit. -/
def logicalLimit : Nat := payloadLength * chunkLimit

theorem chunkStart_eq (index : Nat) (fits : chunkLength * index < offsetLimit) :
    chunkStart index = chunkLength * index := by
  simp only [chunkStart, chunkBits, chunkLength, Nat.shiftLeft_eq] at *
  rw [Nat.mod_eq_of_lt (by omega)]
  omega

/-- A chunk that holds an offset of the stream starts inside the encoded stream. -/
theorem chunkStart_le (offset size : Nat) (inside : offset ≤ size) :
    chunkLength * chunkIndex offset ≤ encodedLength size := by
  rw [encodedLength_suffix offset size inside]
  exact Nat.le_add_right _ _

theorem encodedSize_eq_ok (logical : Nat) (fits : encodedLength logical < offsetLimit) :
    encodedSize logical = .ok (encodedLength logical) :=
  Checked.add_eq_ok_iff.mpr ⟨fits, rfl⟩

theorem encodedSize_eq_ok_iff {logical size : Nat} :
    encodedSize logical = .ok size ↔ encodedLength logical < offsetLimit ∧ encodedLength logical = size :=
  Checked.add_eq_ok_iff

/-- The headers of an encoded stream never take more bytes than there are. -/
theorem logicalSize_encodedLength (logical : Nat) :
    logicalSize (encodedLength logical) = .ok logical := by
  apply Checked.sub_eq_ok_iff.mpr
  rw [pieceCount_eq_div _ _ (by decide)]
  simp only [encodedLength, chunkCount_eq_div, chunkLength, headerLength]
  omega

/-- The sizes of one to three bytes are the only ones that headers alone would exceed. -/
theorem exists_logicalSize {encoded : Nat} (long : encoded = 0 ∨ headerLength ≤ encoded) :
    ∃ size, logicalSize encoded = .ok size := by
  refine ⟨_, Checked.sub_eq_ok ?_⟩
  rw [pieceCount_eq_div _ _ (by decide)]
  simp only [chunkLength, headerLength] at *
  omega

/-- A run of bytes whose last chunk, if it is short, has a payload is as long as some stream. -/
theorem exists_encodedLength {encoded : Nat}
    (payload : encoded % chunkLength = 0 ∨ headerLength < encoded % chunkLength) :
    ∃ size, logicalSize encoded = .ok size ∧ encodedLength size = encoded := by
  have long : encoded = 0 ∨ headerLength ≤ encoded := by
    simp only [chunkLength, headerLength] at *
    omega
  obtain ⟨size, exact⟩ := exists_logicalSize long
  refine ⟨size, exact, ?_⟩
  obtain ⟨_, rfl⟩ := Checked.sub_eq_ok_iff.mp exact
  rw [pieceCount_eq_div _ _ (by decide)]
  simp only [encodedLength, chunkCount_eq_div, chunkLength, headerLength] at *
  omega

end SealedStream.Layout

namespace SealedStream.Placement

open Layout

theorem encodedEnd?_eq_some {placement : Placement}
    (fits : encodedLength placement.logicalSize + placement.base < offsetLimit) :
    placement.encodedEnd? = some (encodedLength placement.logicalSize + placement.base) := by
  unfold encodedEnd?
  rw [encodedSize_eq_ok _ (by omega), Checked.ok_bind, Checked.add_eq_ok fits]
  rfl

theorem encodedEnd?_eq_none {placement : Placement}
    (large : ¬ encodedLength placement.logicalSize + placement.base < offsetLimit) :
    placement.encodedEnd? = none := by
  unfold encodedEnd?
  cases size : encodedSize placement.logicalSize with
  | error trap => rfl
  | ok length =>
    obtain ⟨_, rfl⟩ := encodedSize_eq_ok_iff.mp size
    rw [Checked.ok_bind, Checked.add, if_neg large]
    rfl

/-- A placement is valid if its encoded stream ends at an offset. -/
theorem validate_eq_ok_iff {placement : Placement} :
    placement.validate = .ok () ↔
      encodedLength placement.logicalSize + placement.base < offsetLimit := by
  unfold validate
  by_cases fits : encodedLength placement.logicalSize + placement.base < offsetLimit
  · rw [encodedEnd?_eq_some fits]
    exact ⟨fun _ => fits, fun _ => rfl⟩
  · rw [encodedEnd?_eq_none fits]
    exact ⟨fun valid => (by cases valid), fun valid => absurd valid fits⟩

end SealedStream.Placement
