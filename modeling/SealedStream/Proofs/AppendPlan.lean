import SealedStream.Proofs.AppendPhases
import SealedStream.Proofs.SizedDecoding

/-!
# The order of an append's writes

An append stores all bytes behind the stream before the first byte of the header, so a front part of
its plan that has come to the header has everything else in it. As those bytes determine the data,
an append comes to the header only when its source has given all of them.
-/
namespace SealedStream

open Layout

/-- The positions of the header of the last chunk of a stream, if the chunk has room. -/
def InTailHeader (base size position : Nat) : Prop :=
  offsetInChunk size ≠ 0 ∧ base + chunkLength * chunkIndex size ≤ position ∧
    position < base + chunkLength * chunkIndex size + headerLength
deriving Decidable

namespace Appending

/-- No byte behind the stream lies in the header of its last chunk. -/
theorem not_inTailHeader_of_mem_row {base size : Nat} {bytes : Bytes} {entry : Entry}
    (member : entry ∈ Entry.row (base + encodedLength size) bytes) :
    ¬ InTailHeader base size entry.position := by
  rintro ⟨some, _, stop⟩
  have start := (Entry.position_of_mem_row member).1
  have last := encodedLength_last size some
  omega

/-- The new bytes and headers behind a stream take what the stream grows by. -/
theorem length_body (size : Nat) (data : Bytes) :
    encodedLength size + (body size data).length = encodedLength (size + data.length) := by
  unfold body
  split
  next aligned => rw [Image.length_encode, encodedLength_extend_aligned size _ aligned]
  next some =>
    have extent := encodedLength_extend size data.length some
    have taken : (data.take (payloadLength - offsetInChunk size)).length =
        min (payloadLength - offsetInChunk size) data.length := List.length_take
    have rest : data.length - min (payloadLength - offsetInChunk size) data.length =
        data.length - (payloadLength - offsetInChunk size) := by omega
    rw [rest] at extent
    rw [List.length_append, taken, Image.length_encode, List.length_drop]
    omega

/-- Different data of one length make different bytes behind a stream. -/
theorem body_injective {size : Nat} {first second : Bytes}
    (length : first.length = second.length) (same : body size first = body size second) :
    first = second := by
  unfold body at same
  split at same
  next => exact Image.encode_injective length same
  next =>
    have front : (first.take (payloadLength - offsetInChunk size)).length =
        (second.take (payloadLength - offsetInChunk size)).length := by
      rw [List.length_take, List.length_take, length]
    have rest : (first.drop (payloadLength - offsetInChunk size)).length =
        (second.drop (payloadLength - offsetInChunk size)).length := by
      rw [List.length_drop, List.length_drop, length]
    -- Equal lengths put the end of the last chunk at the same place in both.
    obtain ⟨same_front, same_rest⟩ := List.append_inj same front
    calc
      first = first.take (payloadLength - offsetInChunk size) ++
          first.drop (payloadLength - offsetInChunk size) := (List.take_append_drop _ _).symm
      _ = second.take (payloadLength - offsetInChunk size) ++
          second.drop (payloadLength - offsetInChunk size) := by
        rw [same_front, Image.encode_injective rest same_rest]
      _ = second := List.take_append_drop _ _

variable {payload data : Bytes} {base size : Nat} {entries : List Entry}

/-- A front part of the plan that has come to the header has all bytes behind the stream in it. -/
theorem body_of_touched
    (front : entries <+: plan payload base size data) {entry : Entry} (member : entry ∈ entries)
    (inside : InTailHeader base size entry.position) :
    Entry.row (base + encodedLength size) (body size data) <+: entries := by
  rcases List.prefix_or_prefix_of_prefix front (List.prefix_append _ _) with within | whole
  · exact absurd inside (not_inTailHeader_of_mem_row (within.subset member))
  · exact whole

/-- A front part of the plan that is not the whole of it has not come to the end of the header. -/
theorem count_header_lt (front : entries <+: plan payload base size data)
    (short : entries ≠ plan payload base size data) :
    entries.countP (InTailHeader base size ·.position) < headerLength := by
  by_cases touched : ∃ entry ∈ entries, InTailHeader base size entry.position
  · obtain ⟨entry, member, inside⟩ := touched
    obtain ⟨rest, rfl⟩ := body_of_touched front member inside
    have upto := (List.prefix_append_right_inj _).mp front
    have body : (Entry.row (base + encodedLength size) (body size data)).countP
        (InTailHeader base size ·.position) = 0 := by
      apply List.countP_eq_zero.mpr
      intro entry member
      simpa using not_inTailHeader_of_mem_row member
    have header : (tailHeader payload size data).length ≤ headerLength := by
      unfold tailHeader
      split
      next => exact Nat.zero_le _
      next => exact Nat.le_of_eq (Checksum.length_header _)
    -- All bytes behind the stream are there, so some of the header must be missing.
    have some_left : rest.length ≠ (tailHeader payload size data).length := by
      intro same
      exact short (congrArg _ (upto.eq_of_length (same.trans (Entry.length_row _ _).symm)))
    have bound := upto.length_le
    have counted := List.countP_le_length (l := rest) (p := (InTailHeader base size ·.position))
    rw [Entry.length_row] at bound
    rw [List.countP_append, body]
    omega
  · have none : entries.countP (InTailHeader base size ·.position) = 0 := by
      apply List.countP_eq_zero.mpr
      intro entry member
      simpa using fun inside => touched ⟨entry, member, inside⟩
    rw [none]
    decide

/-- No byte that an append stores lies in front of the stream. -/
theorem base_le_of_mem_plan {entry : Entry} (member : entry ∈ plan payload base size data) :
    base ≤ entry.position := by
  rcases List.mem_append.mp member with body | header
  · have := (Entry.position_of_mem_row body).1
    omega
  · have := (Entry.position_of_mem_row header).1
    omega

/-- An append has come to the header only if its source has given everything. -/
theorem given_of_touched {σ ρ : Type} [TracedStore σ] [TracedSource ρ]
    {first last : Devices σ ρ} {payload given : Bytes} {base size count : Nat}
    {accepted : List Entry}
    (followed : Followed first last count (plan payload base size) given accepted) {entry : Entry}
    (member : entry ∈ accepted) (inside : InTailHeader base size entry.position) :
    given.length = count := by
  -- What is stored is a front part of the plan for any bytes that might still have come, but the
  -- plans for two different rests differ before the header.
  have front : ∀ byte, Entry.row (base + encodedLength size)
      (body size (given ++ List.replicate (count - given.length) byte)) <+: accepted := fun byte =>
    body_of_touched (followed.stored _ (exists_completes followed.length byte)) member inside
  have length : ∀ byte : UInt8, (given ++ List.replicate (count - given.length) byte).length =
      count := fun byte => (exists_completes followed.length byte).length
  have equal_length : (body size (given ++ List.replicate (count - given.length) 0)).length =
      (body size (given ++ List.replicate (count - given.length) 1)).length := by
    have zeros := length_body size (given ++ List.replicate (count - given.length) 0)
    have ones := length_body size (given ++ List.replicate (count - given.length) 1)
    rw [length] at zeros ones
    omega
  have equal_rows : (Entry.row (base + encodedLength size)
      (body size (given ++ List.replicate (count - given.length) 0))).length =
      (Entry.row (base + encodedLength size)
        (body size (given ++ List.replicate (count - given.length) 1))).length := by
    rw [Entry.length_row, Entry.length_row, equal_length]
  have rows := List.prefix_of_prefix_length_le (front 0) (front 1) (Nat.le_of_eq equal_rows)
  have bodies := congrArg (List.map Entry.byte) (rows.eq_of_length equal_rows)
  rw [Entry.map_byte_row, Entry.map_byte_row] at bodies
  have rests := List.append_cancel_left
    (body_injective ((length 0).trans (length 1).symm) bodies)
  -- A zero and a one can only be the same rest if there is none.
  have none : count - given.length = 0 := by
    simpa [List.replicate_inj] using rests
  exact Nat.le_antisymm followed.length (Nat.le_of_sub_eq_zero none)

end Appending

end SealedStream
