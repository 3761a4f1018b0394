import SealedStream.Proofs.AppendPlan

/-!
# What a store holds during an append

An append may be cut after any byte that it has stored. `Midway` lists what the store can hold then:
the stream as it was, with a front part of the new bytes behind it, or all new bytes and a last
header of which some bytes are already the new ones. `Midway.of_prefix` says that every front part
of the plan leaves such a state, and the other lemmas what can be read from it.
-/
namespace SealedStream

open Layout

/-- The contents of a store in which `data` are being appended to a stream of `old`: the stream lies
behind `before`, and `after` lay behind the stream. -/
inductive Midway (before old data after : Bytes) : (touched : Bool) → Bytes → Prop
  | body (part : Bytes) (front : part <+: Appending.body old.length data) :
      Midway before old data after false
        (before ++ Image.encode old ++ part ++ after.drop part.length)
  | header (chunks payload : Bytes) (count : Nat) (split : old = chunks ++ payload)
      (aligned : chunks.length = payloadLength * chunkIndex old.length)
      (length : payload.length = offsetInChunk old.length) (some : payload ≠ [])
      (positive : 0 < count) (bound : count ≤ headerLength) :
      Midway before old data after true
        (before ++ Image.encode chunks ++
          ((Appending.tailHeader payload old.length data).take count ++
            (Checksum.of payload).header.drop count) ++
          payload ++ Appending.body old.length data ++
          after.drop (Appending.body old.length data).length)

namespace Midway

theorem offset_ne_zero {payload : Bytes} {size : Nat} (length : payload.length = offsetInChunk size)
    (nonempty : payload ≠ []) : offsetInChunk size ≠ 0 := by
  rw [← length]
  simpa using nonempty

/-- A stream whose last chunk has room ends with the frame of its last payload. -/
theorem exists_tail {old : Bytes} (some : offsetInChunk old.length ≠ 0) :
    ∃ chunks payload, old = chunks ++ payload ∧
      chunks.length = payloadLength * chunkIndex old.length ∧
      payload.length = offsetInChunk old.length ∧ payload ≠ [] ∧
      Image.encode old = Image.encode chunks ++ Frame.ofPayload payload ∧
      (Image.encode chunks).length = chunkLength * chunkIndex old.length := by
  have split := offset_split old.length
  have small := offsetInChunk_lt old.length
  have length : (old.take (payloadLength * chunkIndex old.length)).length =
      payloadLength * chunkIndex old.length := List.length_take_of_le (by omega)
  have rest : (old.drop (payloadLength * chunkIndex old.length)).length =
      offsetInChunk old.length := by
    rw [List.length_drop]
    omega
  have nonempty : old.drop (payloadLength * chunkIndex old.length) ≠ [] := by
    apply List.length_pos_iff.mp
    omega
  have apart := Image.encode_last ⟨chunkIndex old.length, length⟩ nonempty (by omega)
  rw [List.take_append_drop] at apart
  refine ⟨_, _, (List.take_append_drop _ _).symm, length, rest, nonempty, apart, ?_⟩
  rw [Image.length_encode, length, encodedLength_full]

end Midway

/-- A payload filled up with what comes next fits a chunk, and is full if more comes. -/
theorem Image.filled_block {payload : Bytes} (some : payload ≠ [])
    (small : payload.length < payloadLength) (data : Bytes) :
    payload ++ data.take (payloadLength - payload.length) ≠ [] ∧
      (payload ++ data.take (payloadLength - payload.length)).length ≤ payloadLength ∧
      ((payload ++ data.take (payloadLength - payload.length)).length = payloadLength ∨
        data.drop (payloadLength - payload.length) = []) := by
  refine ⟨by simp [some], ?_, ?_⟩
  · rw [List.length_append, List.length_take]
    omega
  · rcases Nat.le_total data.length (payloadLength - payload.length) with short | long
    · exact .inr (List.drop_of_length_le short)
    · refine .inl ?_
      rw [List.length_append, List.length_take_of_le long]
      omega

/-- What an append adds to a stream. -/
theorem Image.encode_append_body {chunks payload : Bytes}
    (aligned : payloadLength ∣ chunks.length) (some : payload ≠ [])
    (small : payload.length < payloadLength) (data : Bytes) :
    encode (chunks ++ payload ++ data) =
      encode chunks ++ Appending.tailHeader payload (chunks ++ payload).length data ++ payload ++
        Appending.body (chunks ++ payload).length data := by
  obtain ⟨count, length⟩ := aligned
  have offset : offsetInChunk (chunks ++ payload).length = payload.length := by
    rw [List.length_append, length, offsetInChunk, Nat.mul_add_mod, Nat.mod_eq_of_lt small]
  have positive : payload.length ≠ 0 := by simpa using some
  obtain ⟨block, block_small, full⟩ := filled_block some small data
  -- The filled payload makes the first chunk behind the whole ones, with the new header.
  have first := encode_append_block block block_small full
  rw [List.append_assoc payload, List.take_append_drop] at first
  rw [Appending.tailHeader, Appending.body, offset, if_neg positive, if_neg positive,
    List.append_assoc chunks, encode_append ⟨count, length⟩, first, Frame.ofPayload]
  simp only [List.append_assoc]

namespace Midway

variable {contents : Memory} {before old data after : Bytes}

/-- The last payload of a stored stream is what the contents show of it. -/
theorem tailPayload_of_stored {chunks payload : Bytes}
    (stored : contents.bytes = before ++ Image.encode old ++ after)
    (frame : Image.encode old = Image.encode chunks ++ Frame.ofPayload payload)
    (start : (Image.encode chunks).length = chunkLength * chunkIndex old.length)
    (length : payload.length = offsetInChunk old.length) :
    Appending.tailPayload contents before.length old.length = payload := by
  have view : contents.bytes =
      (before ++ Image.encode chunks ++ (Checksum.of payload).header) ++ (payload ++ after) := by
    rw [stored, frame, Frame.ofPayload]
    simp only [List.append_assoc]
  have position : before.length + chunkLength * chunkIndex old.length + headerLength =
      (before ++ Image.encode chunks ++ (Checksum.of payload).header).length := by
    rw [List.length_append, List.length_append, start, Checksum.length_header]
  rw [Appending.tailPayload, position, view, List.drop_left, ← length, List.take_left]

/-- A front part of the bytes that go behind the stream leaves the stream as it was. -/
theorem of_body (stored : contents.bytes = before ++ Image.encode old ++ after) {part : Bytes}
    (front : part <+: Appending.body old.length data) :
    Midway before old data after false
      (contents.replay
        (Entry.row (before.length + encodedLength old.length) part)).bytes := by
  have offset : before.length + encodedLength old.length =
      (before ++ Image.encode old).length := by
    rw [List.length_append, Image.length_encode]
  rw [offset, Memory.bytes_replay_behind stored]
  exact .body part front

/-- What all bytes behind the stream and some of the new header make of the contents. -/
theorem bytes_of_header {chunks payload : Bytes}
    (stored : contents.bytes = before ++ Image.encode old ++ after)
    (frame : Image.encode old = Image.encode chunks ++ Frame.ofPayload payload)
    (start : (Image.encode chunks).length = chunkLength * chunkIndex old.length)
    (some : offsetInChunk old.length ≠ 0) {count : Nat} (bound : count ≤ headerLength) :
    (contents.replay
      (Entry.row (before.length + encodedLength old.length) (Appending.body old.length data) ++
        Entry.row (before.length + chunkLength * chunkIndex old.length)
          ((Appending.tailHeader payload old.length data).take count))).bytes =
      before ++ Image.encode chunks ++
        ((Appending.tailHeader payload old.length data).take count ++
          (Checksum.of payload).header.drop count) ++
        payload ++ Appending.body old.length data ++
        after.drop (Appending.body old.length data).length := by
  rw [Memory.replay_append]
  have offset : before.length + encodedLength old.length =
      (before ++ Image.encode old).length := by
    rw [List.length_append, Image.length_encode]
  have position : before.length + chunkLength * chunkIndex old.length =
      (before ++ Image.encode chunks).length := by
    rw [List.length_append, start]
  -- With the new bytes in place, the old header is still between the chunks and the payload.
  have behind := Memory.bytes_replay_behind stored (Appending.body old.length data)
  have view : (contents.replay (Entry.row (before.length + encodedLength old.length)
      (Appending.body old.length data))).bytes = (before ++ Image.encode chunks) ++
        ((Checksum.of payload).header ++ (payload ++ (Appending.body old.length data ++
          after.drop (Appending.body old.length data).length))) := by
    rw [offset, behind, frame, Frame.ofPayload]
    simp only [List.append_assoc]
  have taken : ((Appending.tailHeader payload old.length data).take count).length = count := by
    apply List.length_take_of_le
    rw [Appending.length_tailHeader _ some]
    exact bound
  rw [position, Memory.bytes_replay_behind view, taken,
    List.drop_append_of_le_length (by rw [Checksum.length_header]; exact bound)]
  simp only [List.append_assoc]

/-- All bytes behind the stream and some of the new header leave a header that is partly new. -/
theorem of_header (stored : contents.bytes = before ++ Image.encode old ++ after)
    (some : offsetInChunk old.length ≠ 0) {count : Nat} (positive : 0 < count)
    (bound : count ≤ headerLength) :
    Midway before old data after true
      (contents.replay
        (Entry.row (before.length + encodedLength old.length) (Appending.body old.length data) ++
          Entry.row (before.length + chunkLength * chunkIndex old.length)
            ((Appending.tailHeader (Appending.tailPayload contents before.length old.length)
              old.length data).take count))).bytes := by
  obtain ⟨chunks, payload, split, aligned, length, nonempty, frame, start⟩ := exists_tail some
  rw [tailPayload_of_stored stored frame start length, bytes_of_header stored frame start some bound]
  exact .header chunks payload count split aligned length nonempty positive bound

/-- The whole plan of an append leaves the longer stream. -/
theorem bytes_of_plan (stored : contents.bytes = before ++ Image.encode old ++ after) (data : Bytes) :
    (contents.replay (Appending.plan
      (Appending.tailPayload contents before.length old.length) before.length old.length data)).bytes =
      before ++ Image.encode (old ++ data) ++
        after.drop (Appending.body old.length data).length := by
  rw [Appending.plan]
  by_cases aligned : offsetInChunk old.length = 0
  · have offset : before.length + encodedLength old.length =
        (before ++ Image.encode old).length := by
      rw [List.length_append, Image.length_encode]
    have body : Appending.body old.length data = Image.encode data := by
      rw [Appending.body, if_pos aligned]
    rw [Appending.tailHeader, if_pos aligned, Entry.row_nil, List.append_nil, offset,
      Memory.bytes_replay_behind stored, body, Image.encode_append (Nat.dvd_of_mod_eq_zero aligned)]
    simp only [List.append_assoc]
  · obtain ⟨chunks, payload, split, full, length, nonempty, frame, start⟩ := exists_tail aligned
    have header : (Appending.tailHeader payload old.length data).take headerLength =
        Appending.tailHeader payload old.length data :=
      List.take_of_length_le (Nat.le_of_eq (Appending.length_tailHeader payload aligned data))
    -- Writing the header whole leaves nothing of the old one.
    have replaced : (Checksum.of payload).header.drop headerLength = [] :=
      List.drop_of_length_le (Nat.le_of_eq (Checksum.length_header _))
    have whole := Image.encode_append_body ⟨_, full⟩ nonempty
      (length ▸ offsetInChunk_lt old.length) data
    rw [← split] at whole
    rw [tailPayload_of_stored stored frame start length, ← header,
      bytes_of_header stored frame start aligned (Nat.le_refl headerLength), header, replaced, whole]
    simp only [List.append_assoc, List.append_nil]

/-- Every front part of the plan of an append leaves one of these states. -/
theorem of_prefix (stored : contents.bytes = before ++ Image.encode old ++ after)
    {entries : List Entry}
    (front : entries <+: Appending.plan
      (Appending.tailPayload contents before.length old.length) before.length old.length data) :
    ∃ touched, Midway before old data after touched (contents.replay entries).bytes ∧
      (touched = true ↔
        ∃ entry ∈ entries, InTailHeader before.length old.length entry.position) := by
  -- Either the entries end among the new bytes, or some of the header come behind all of those.
  have untouched : ∀ part : Bytes, part <+: Appending.body old.length data →
      ∃ touched, Midway before old data after touched (contents.replay
          (Entry.row (before.length + encodedLength old.length) part)).bytes ∧
        (touched = true ↔ ∃ entry ∈ Entry.row (before.length + encodedLength old.length) part,
          InTailHeader before.length old.length entry.position) := by
    intro part upto
    refine ⟨false, of_body stored upto, ?_⟩
    constructor
    · intro touched
      cases touched
    · rintro ⟨entry, member, inside⟩
      exact absurd inside (Appending.not_inTailHeader_of_mem_row member)
  rcases List.prefix_or_prefix_of_prefix front (List.prefix_append _ _) with within | ⟨rest, past⟩
  · -- A front part of a row is the row of a front part of the bytes.
    rw [List.prefix_iff_eq_take.mp within, Entry.take_row]
    exact untouched _ (List.take_prefix _ _)
  · -- Past the bytes behind the stream, what is left is a front part of the header.
    subst past
    have upto := (List.prefix_append_right_inj _).mp front
    have rest_eq := List.prefix_iff_eq_take.mp upto
    have bound := upto.length_le
    rw [Entry.take_row] at rest_eq
    rw [Entry.length_row] at bound
    by_cases none : rest = []
    · rw [none, List.append_nil]
      exact untouched _ (List.prefix_refl _)
    · have positive : 0 < rest.length := List.length_pos_iff.mpr none
      have some : offsetInChunk old.length ≠ 0 := by
        intro aligned
        rw [Appending.tailHeader, if_pos aligned, List.length_nil] at bound
        omega
      have header_length := Appending.length_tailHeader
        (Appending.tailPayload contents before.length old.length) some data
      rw [header_length] at bound
      refine ⟨true, rest_eq ▸ of_header stored some positive bound, fun _ => ?_, fun _ => rfl⟩
      obtain ⟨entry, member⟩ := List.exists_mem_of_ne_nil rest none
      have inside := member
      rw [rest_eq] at inside
      obtain ⟨start, stop⟩ := Entry.position_of_mem_row inside
      rw [List.length_take, header_length] at stop
      exact ⟨entry, List.mem_append_right _ member, some, start, by omega⟩

end Midway

end SealedStream
