import SealedStream.Proofs.RangeAgreement

/-!
# Streams that were cut off

A front part of an image that is not all of it ends between two chunks, inside a header or inside a
payload. A reader that knows the size of the data takes none of these for the end of the data, nor for
damage. It gives the payloads of the chunks that are all there, as far as they belong to what it was
asked for, and then reports that the data ended too soon (`truncation_detected`). The pure side is
`Image.unpack_of_truncated`; a range is a window on what comes out from its first chunk on, and the
image from there on is cut off as well (`Image.ranged_of_truncated`).
-/
namespace SealedStream

open Layout

namespace Layout

/-- The chunk with that index lies wholly in the first `length` bytes of the image of `size` bytes. It
ends with the image if it is the last. -/
def Present (size length index : Nat) : Prop :=
  min (chunkLength * (index + 1)) (encodedLength size) ≤ length

instance (size length index : Nat) : Decidable (Present size length index) :=
  inferInstanceAs (Decidable (_ ≤ _))

/-- Where the image is cut off, as many chunks are there as full chunks fit in. -/
theorem present_iff {size length : Nat} (short : length < encodedLength size) (index : Nat) :
    Present size length index ↔ index < length / chunkLength := by
  have quotient : index < length / chunkLength ↔ chunkLength * (index + 1) ≤ length := by
    rw [Nat.lt_iff_add_one_le, Nat.le_div_iff_mul_le (by decide), Nat.mul_comm]
  rw [quotient, Present]
  omega

end Layout

namespace Image

/-- The number of whole chunks behind the first one. -/
theorem chunks_behind {length : Nat} (long : chunkLength ≤ length) :
    length / chunkLength = (length - chunkLength) / chunkLength + 1 :=
  Nat.div_eq_sub_div (by decide) long

/-- An image that is cut off inside its first frame opens to nothing. -/
theorem openFirst_of_short {size : Nat} {image : Bytes}
    (short : image.length < headerLength + min size payloadLength) :
    openFirst size image = .error (.source .unexpectedEof) := by
  rw [openFirst]
  exact if_pos short

/-- Out of an image that is cut off come the payloads of its whole chunks, and then its end is
noticed. -/
theorem unpack_of_truncated {data part : Bytes} (cut : part <+: encode data)
    (short : part.length < encodedLength data.length) :
    unpack data.length part =
      ⟨data.take (payloadLength * (part.length / chunkLength)), some (.source .unexpectedEof)⟩ := by
  -- The induction is on the data, chunk by chunk; the cut is inside the first chunk or behind it.
  induction data using chunk_induction generalizing part with
  | empty =>
    rw [List.length_nil, encodedLength_zero] at short
    exact absurd short (Nat.not_lt_zero _)
  | chunk payload rest nonempty small full ih =>
    have positive : 0 < payload.length := List.length_pos_iff.mpr nonempty
    have size : (payload ++ rest).length = payload.length + rest.length := List.length_append
    have some_left : (payload ++ rest).length ≠ 0 := by omega
    have first : min (payload ++ rest).length payloadLength = payload.length := by
      rcases full with full | rfl
      · omega
      · rw [List.append_nil]
        exact Nat.min_eq_left small
    have frame := Frame.length_ofPayload payload
    have chunk := headerLength_add_payloadLength
    rw [encode_append_block nonempty small full] at cut
    rcases Nat.lt_or_ge part.length (Frame.ofPayload payload).length with inside | behind
    · have none : part.length / chunkLength = 0 := Nat.div_eq_of_lt (by omega)
      rw [unpack_of_error some_left (openFirst_of_short (by rw [first]; omega)), none, Nat.mul_zero,
        List.take_zero]
    · -- The first frame is there, so something is missing behind it, and its payload is full.
      obtain ⟨others, rfl⟩ : Frame.ofPayload payload <+: part :=
        List.prefix_of_prefix_length_le (List.prefix_append _ _) cut behind
      replace cut := (List.prefix_append_right_inj _).mp cut
      have whole := encodedLength_first (payload ++ rest).length (Nat.pos_of_ne_zero some_left)
      have others_length : (payload ++ rest).length - payload.length = rest.length := by omega
      rw [first, others_length] at whole
      rw [List.length_append, frame] at short
      have missing : others.length < encodedLength rest.length := by omega
      have exact : payload.length = payloadLength := by
        rcases full with full | rfl
        · exact full
        · rw [List.length_nil, encodedLength_zero] at missing
          exact absurd missing (Nat.not_lt_zero _)
      have sealed : (Frame.ofPayload payload).length = chunkLength := by omega
      have long : chunkLength ≤ (Frame.ofPayload payload ++ others).length := by
        rw [List.length_append]
        omega
      have count := chunks_behind long
      rw [List.length_append, sealed, Nat.add_sub_cancel_left] at count
      rw [unpack_of_ok some_left (openFirst_ofPayload nonempty first.symm others), others_length,
        ← sealed, List.drop_left, ih cut missing, List.length_append, sealed, count, Nat.mul_succ,
        Nat.add_comm, ← exact, List.take_length_add_append]

/-- Out of a range that reaches behind the last whole chunk of an image that is cut off comes what lies
in the whole chunks, and then the end of the image is noticed. -/
theorem ranged_of_truncated {data part : Bytes} {start stop : Nat} (cut : part <+: encode data)
    (short : part.length < encodedLength data.length) (ordered : start < stop)
    (inside : stop ≤ data.length)
    (reaches : payloadLength * (part.length / chunkLength) < stop) :
    ranged data.length part start stop =
      ⟨(data.take (payloadLength * (part.length / chunkLength))).drop start,
        some (.source .unexpectedEof)⟩ := by
  have split := offset_split start
  have small := offsetInChunk_lt start
  have suffix := encodedLength_suffix start data.length (by omega)
  rw [ranged]
  generalize chunkIndex start = index at *
  -- From the chunk of the start on, the image of the rest of the data is cut off.
  have rest : part.drop (chunkLength * index) <+: encode (data.drop (payloadLength * index)) := by
    obtain ⟨others, whole⟩ := cut
    rw [← drop_encode data index (by omega), ← whole, List.drop_append]
    exact List.prefix_append _ _
  have left : (data.drop (payloadLength * index)).length = data.length - payloadLength * index :=
    List.length_drop
  have some_left := le_encodedLength (data.length - payloadLength * index)
  have missing : (part.drop (chunkLength * index)).length <
      encodedLength (data.drop (payloadLength * index)).length := by
    rw [left, List.length_drop]
    omega
  have unpacked := unpack_of_truncated rest missing
  rw [left, List.length_drop, Nat.sub_mul_div, Nat.mul_sub] at unpacked
  generalize part.length / chunkLength = count at *
  have came : ((data.drop (payloadLength * index)).take
      (payloadLength * count - payloadLength * index)).length ≤
        payloadLength * count - payloadLength * index := List.length_take_le _ _
  have past : ¬ offsetInChunk start + (stop - start) ≤ ((data.drop (payloadLength * index)).take
      (payloadLength * count - payloadLength * index)).length := by omega
  rw [unpacked, Unpacked.window, if_neg past, ← List.drop_take,
    List.drop_drop, ← split, List.take_of_length_le]
  rw [List.length_drop, List.length_take]
  omega

end Image

/-- An image that is cut off is never taken for a complete or a damaged one. A decoder that knows the
size gives the payloads of the chunks that are all there, and then reports the unexpected end. So does
a reader of a range that needs a chunk that is not all there, with as much of the payloads as belongs
to the range. -/
theorem truncation_detected (data part : Bytes) (cut : part <+: Image.encode data)
    (proper : part ≠ Image.encode data) :
    ∃ count, (∀ index, Present data.length part.length index ↔ index < count) ∧
      (∀ (ρ : Type) [Source ρ] (source : ρ) (scratch : Scratch), Source.Supplies source part →
        Source.DrainsTo (SizedDecoder.create source data.length scratch)
          (data.take (payloadLength * count)) (.failed (.bare .unexpectedEof))) ∧
      (∀ (σ : Type) [ReadableStore σ] (store : σ) (scratch : Scratch) (contents : Bytes)
        (base start stop : Nat), ReadableStore.Serves store contents → contents.drop base = part →
        base + encodedLength data.length < offsetLimit → start < stop → stop ≤ data.length →
        (∃ index, chunkIndex start ≤ index ∧ payloadLength * index < stop ∧
          ¬ Present data.length part.length index) →
        ∃ reader, RangeReader.create store base start stop data.length scratch = .ok (.ok reader) ∧
          Source.DrainsTo reader ((data.take (payloadLength * count)).drop start)
            (.failed (.bare .unexpectedEof))) := by
  have short : part.length < encodedLength data.length := by
    rw [← Image.length_encode]
    exact Nat.lt_of_le_of_ne cut.length_le fun same => proper (cut.eq_of_length same)
  refine ⟨part.length / chunkLength, present_iff short, ?decoder, ?range⟩
  case decoder =>
    intro ρ _ source scratch supplies
    have yields := SizedDecoder.yields scratch supplies (Nat.le_of_lt short)
    rw [Image.unpack_of_truncated cut short] at yields
    exact yields.drainsTo
  case range =>
    rintro σ _ store scratch contents base start stop serves rfl fits ordered inside
      ⟨index, _, before, absent⟩
    have reaches : payloadLength * ((contents.drop base).length / chunkLength) < stop := by
      have last := mt (present_iff short index).mpr absent
      exact Nat.lt_of_le_of_lt (Nat.mul_le_mul_left _ (Nat.le_of_not_lt last)) before
    obtain ⟨reader, created, yields⟩ :=
      RangeReader.create_ranged scratch serves (Nat.le_of_lt ordered) inside fits
    rw [List.take_of_length_le (Nat.le_of_lt short),
      Image.ranged_of_truncated cut short ordered inside reaches] at yields
    exact ⟨reader, created, yields.drainsTo⟩

/-- One byte more than a chunk holds, in an image that is cut off inside its second header. Both readers
give what the first chunk has for them, from devices that split and interrupt. -/
theorem second_header_cut_off :
    let data : Bytes := List.replicate 65533 7
    let part := (Image.encode data).take 65538
    let script : Script := [.limit 3, .fail (.bare .interrupted)]
    (part <+: Image.encode data ∧ part ≠ Image.encode data) ∧
    Source.DrainsTo (SizedDecoder.create (⟨part, script⟩ : Feed) data.length .zero)
      (List.replicate 65532 7) (.failed (.bare .unexpectedEof)) ∧
    ∃ reader, RangeReader.create (⟨⟨9 :: part⟩, true, script, [], []⟩ : Medium) 1 65531 65533
        data.length .zero = .ok (.ok reader) ∧
      Source.DrainsTo reader [7] (.failed (.bare .unexpectedEof)) := by
  intro data part script
  have size : data.length = 65533 := List.length_replicate
  have whole : (Image.encode data).length = 65541 := by
    rw [Image.length_encode, size]
    rfl
  have length : part.length = 65538 := List.length_take_of_le (by omega)
  have cut : part <+: Image.encode data := List.take_prefix _ _
  have proper : part ≠ Image.encode data := by
    intro same
    rw [same, whole] at length
    cases length
  have gentle : ∀ event ∈ script, event.Gentle := by decide
  obtain ⟨count, present, decodes, ranges⟩ := truncation_detected data part cut proper
  rw [size, length] at present
  -- The first chunk is there, and the second is not.
  obtain rfl : count = 1 := by
    have first := (present 0).mp (by decide)
    have second := mt (present 1).mpr (by decide)
    omega
  refine ⟨⟨cut, proper⟩, ?_, ?_⟩
  · have decoded := decodes Feed ⟨part, script⟩ .zero (Feed.supplies gentle)
    rwa [Nat.mul_one, List.take_replicate] at decoded
  · have behind : (9 :: part).drop 1 = part := by rw [List.drop_succ_cons, List.drop_zero]
    obtain ⟨reader, created, drains⟩ := ranges Medium ⟨⟨9 :: part⟩, true, script, [], []⟩ .zero _ 1
      65531 65533 (Medium.serves gentle) behind (by rw [size]; decide) (by decide)
      (Nat.le_of_eq size.symm) ⟨1, by decide, by decide, by rw [size, length]; decide⟩
    rw [Nat.mul_one, List.take_replicate, List.drop_replicate] at drains
    exact ⟨reader, created, drains⟩

end SealedStream
