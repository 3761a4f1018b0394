import SealedStream.Proofs.Canonicity

/-!
# Addresses in an encoded stream

A stream can be read or extended from any of its chunks on, because the chunks before one take a fixed
number of bytes: what starts there is the encoding of the rest of the data, and it is as long as the
encoding of a stream of that size (`suffix_sizes`). So the address of a byte is known from its offset
alone. Addresses grow with the offsets, and the image of the data holds each byte at its address
(`getElem?_encode_address`). `address_map_exact` adds the sizes at which an append places its parts.
-/
namespace SealedStream

namespace Layout

/-- Where the encoded stream holds the byte at a logical offset. -/
def address (offset : Nat) : Nat :=
  chunkStart (chunkIndex offset) + headerLength + offsetInChunk offset

/-- How many of `count` bytes that are added to a stream go into its last chunk. -/
def fillLength (size count : Nat) : Nat :=
  if offsetInChunk size = 0 then 0 else min (payloadLength - offsetInChunk size) count

variable {offset size : Nat}

/-- Every chunk of a stream that ends below the offset limit starts where it should. -/
theorem chunkStart_chunkIndex (inside : offset ≤ size) (fits : encodedLength size < offsetLimit) :
    chunkStart (chunkIndex offset) = chunkLength * chunkIndex offset :=
  chunkStart_eq _ (Nat.lt_of_le_of_lt (chunkStart_le offset size inside) fits)

theorem payloads_before_le (inside : offset ≤ size) :
    payloadLength * chunkIndex offset ≤ size := by
  have split := offset_split offset
  omega

/-- From the chunk of an offset on, the sizes are those of the stream of what is left. -/
theorem suffix_sizes (inside : offset ≤ size) (fits : encodedLength size < offsetLimit) :
    ∃ rest extent, Checked.sub size (payloadLength * chunkIndex offset) = .ok rest ∧
      Checked.sub (encodedLength size) (chunkStart (chunkIndex offset)) = .ok extent ∧
      encodedSize rest = .ok extent ∧ logicalSize extent = .ok rest := by
  have start := chunkStart_chunkIndex inside fits
  have bound := chunkStart_le offset size inside
  have suffix := encodedLength_suffix offset size inside
  -- The extent fits the offsets because the whole stream does.
  refine ⟨size - payloadLength * chunkIndex offset,
    encodedLength (size - payloadLength * chunkIndex offset),
    Checked.sub_eq_ok (payloads_before_le inside), ?_, encodedSize_eq_ok _ (by omega),
    logicalSize_encodedLength _⟩
  rw [start, Checked.sub_eq_ok bound, suffix, Nat.add_sub_cancel_left]

theorem address_eq (inside : offset < size) (fits : encodedLength size < offsetLimit) :
    address offset = chunkLength * chunkIndex offset + (headerLength + offsetInChunk offset) := by
  rw [address, chunkStart_chunkIndex (Nat.le_of_lt inside) fits, Nat.add_assoc]

theorem address_lt (inside : offset < size) (fits : encodedLength size < offsetLimit) :
    address offset < encodedLength size := by
  rw [address_eq inside fits]
  simp only [encodedLength, chunkCount_eq_div, chunkIndex, offsetInChunk, payloadLength, chunkLength,
    headerLength]
  omega

theorem address_lt_address {smaller : Nat} (less : smaller < offset) (inside : offset < size)
    (fits : encodedLength size < offsetLimit) : address smaller < address offset := by
  rw [address_eq inside fits, address_eq (Nat.lt_trans less inside) fits]
  -- In one chunk the places in the payload differ, and otherwise a whole chunk lies between the starts.
  simp only [chunkIndex, offsetInChunk, payloadLength, chunkLength, headerLength]
  omega

theorem fillLength_le (size count : Nat) : fillLength size count ≤ count := by
  unfold fillLength
  split
  · exact Nat.zero_le _
  · exact Nat.min_le_right _ _

/-- The old stream, what fills its last chunk and the stream of the other bytes take what the longer
stream takes. -/
theorem encodedLength_fill (size count : Nat) :
    encodedLength size + fillLength size count + encodedLength (count - fillLength size count) =
      encodedLength (size + count) := by
  unfold fillLength
  split
  next aligned => rw [Nat.add_zero, Nat.sub_zero, encodedLength_extend_aligned _ _ aligned]
  next partial_chunk => rw [encodedLength_extend _ _ partial_chunk]

end Layout

open Layout

/-- The image of the data holds the byte at each offset at its address. -/
theorem Image.getElem?_encode_address {data : Bytes} {offset : Nat} (inside : offset < data.length)
    (fits : encodedLength data.length < offsetLimit) :
    (encode data)[address offset]? = data[offset]? := by
  have before := payloads_before_le (Nat.le_of_lt inside)
  have split := offset_split offset
  -- Behind the chunks before it, the offset lies in the first payload of what is left.
  have some : data.drop (payloadLength * chunkIndex offset) ≠ [] := by
    apply List.length_pos_iff.mp
    rw [List.length_drop]
    omega
  have image : (encode data).drop (chunkLength * chunkIndex offset) =
      Frame.ofPayload ((data.drop (payloadLength * chunkIndex offset)).take payloadLength) ++
        encode ((data.drop (payloadLength * chunkIndex offset)).drop payloadLength) := by
    rw [drop_encode data _ before, encode_of_ne_nil some]
  have held : offsetInChunk offset <
      ((data.drop (payloadLength * chunkIndex offset)).take payloadLength).length := by
    have small := offsetInChunk_lt offset
    rw [List.length_take, List.length_drop]
    omega
  calc
    (encode data)[address offset]?
        = ((encode data).drop (chunkLength * chunkIndex offset))[
            headerLength + offsetInChunk offset]? := by
          rw [List.getElem?_drop, address_eq inside fits]
    _ = (Frame.ofPayload ((data.drop (payloadLength * chunkIndex offset)).take payloadLength))[
            headerLength + offsetInChunk offset]? := by
          rw [image, List.getElem?_append_left]
          rw [Frame.length_ofPayload]
          exact Nat.add_lt_add_left held headerLength
    _ = ((data.drop (payloadLength * chunkIndex offset)).take payloadLength)[
            offsetInChunk offset]? := by
          rw [Frame.ofPayload, List.getElem?_append_right (by simp), Checksum.length_header,
            Nat.add_sub_cancel_left]
    _ = data[offset]? := by
          rw [List.getElem?_take_of_lt (offsetInChunk_lt offset), List.getElem?_drop, ← split]

/-- Positions in a stream that ends below the offset limit are exact. The chunk of an offset starts
where no bit is lost, and from there on the stream has the sizes of what is left of the data. The
addresses of the bytes lie in the stream, grow with the offsets, and hold the bytes. A stream that is
added to takes what it took, what fills its last chunk, and a stream of the other bytes. -/
theorem address_map_exact {data : Bytes} {encoded : Nat}
    (sized : encodedSize data.length = .ok encoded) :
    (∀ offset ≤ data.length,
      chunkStart (chunkIndex offset) = 65536 * chunkIndex offset ∧
      chunkStart (chunkIndex offset) ≤ encoded ∧
      ∃ rest extent, Checked.sub data.length (payloadLength * chunkIndex offset) = .ok rest ∧
        Checked.sub encoded (chunkStart (chunkIndex offset)) = .ok extent ∧
        encodedSize rest = .ok extent ∧ logicalSize extent = .ok rest) ∧
    (∀ offset < data.length, address offset < encoded ∧
      (Image.encode data)[address offset]? = data[offset]? ∧
      ∀ smaller < offset, address smaller < address offset) ∧
    (∀ count total, encodedSize (data.length + count) = .ok total →
      ∃ others taken, Checked.sub count (fillLength data.length count) = .ok others ∧
        encodedSize others = .ok taken ∧
        encoded + fillLength data.length count + taken = total) := by
  obtain ⟨fits, rfl⟩ := encodedSize_eq_ok_iff.mp sized
  refine ⟨fun offset inside => ?chunks, fun offset inside => ?bytes, fun count total more => ?append⟩
  case chunks =>
    have start := chunkStart_chunkIndex inside fits
    refine ⟨start, ?_, suffix_sizes inside fits⟩
    rw [start]
    exact chunkStart_le offset _ inside
  case bytes =>
    exact ⟨address_lt inside fits, Image.getElem?_encode_address inside fits,
      fun smaller less => address_lt_address less inside fits⟩
  case append =>
    obtain ⟨below, rfl⟩ := encodedSize_eq_ok_iff.mp more
    have whole := encodedLength_fill data.length count
    exact ⟨_, _, Checked.sub_eq_ok (fillLength_le _ _), encodedSize_eq_ok _ (by omega), whole⟩

/-- In a stream of one byte more than a chunk holds, that byte is the last of the image, behind the
second header, and what is left from its chunk on is a stream of one byte. Another full payload fills
the second chunk with all its bytes but one, and that one takes a third. -/
theorem byte_behind_full_chunk :
    let data : Bytes := List.replicate 65532 7 ++ [9]
    encodedSize data.length = .ok 65541 ∧ address 65532 = 65540 ∧
    (Image.encode data)[65540]? = some 9 ∧
    (∃ rest extent, Checked.sub 65533 (payloadLength * chunkIndex 65532) = .ok rest ∧
      Checked.sub 65541 (chunkStart (chunkIndex 65532)) = .ok extent ∧
      encodedSize rest = .ok extent ∧ logicalSize extent = .ok rest) ∧
    ∃ others taken, Checked.sub 65532 (fillLength 65533 65532) = .ok others ∧
      encodedSize others = .ok taken ∧ 65541 + fillLength 65533 65532 + taken = 131077 := by
  intro data
  have length : data.length = 65533 := by
    rw [List.length_append, List.length_replicate]
    rfl
  have sized : encodedSize data.length = .ok 65541 := by
    rw [length]
    rfl
  have more : encodedSize (data.length + 65532) = .ok 131077 := by
    rw [length]
    rfl
  have last : data[65532]? = some 9 := by
    rw [List.getElem?_append_right (Nat.le_of_eq List.length_replicate), List.length_replicate]
    rfl
  obtain ⟨chunks, bytes, append⟩ := address_map_exact sized
  obtain ⟨_, _, suffix⟩ := chunks 65532 (by omega)
  have place : address 65532 = 65540 := by decide
  obtain ⟨_, held, _⟩ := bytes 65532 (by omega)
  have parts := append 65532 131077 more
  rw [place, last] at held
  rw [length] at suffix parts
  exact ⟨sized, place, held, suffix, parts⟩

end SealedStream
