import SealedStream.Proofs.CrcBursts
import SealedStream.Proofs.DecoderAgreement
import SealedStream.Proofs.RangeAgreement

/-!
# Damage within a chunk

A chunk that has changed only within its header, or only within four payload bytes in a row, does not
match its header any more (`Frame.Disturbed.exists_mismatch`). From an image with such a chunk every
decoder gives the payloads of the chunks before it and then the mismatch
(`local_damage_detected`).
-/
namespace SealedStream

open Layout

/-- A frame of a payload that has changed within the header, or within four payload bytes in a row. -/
inductive Frame.Disturbed : (payload frame : Bytes) → Prop where
  | header {payload header : Bytes} (length : header.length = headerLength)
    (changed : header ≠ (Checksum.of payload).header) : Disturbed payload (header ++ payload)
  | payload {front old new back : Bytes} (length : old.length = new.length)
    (short : old.length ≤ 4) (changed : old ≠ new) :
    Disturbed (front ++ old ++ back)
      ((Checksum.of (front ++ old ++ back)).header ++ (front ++ new ++ back))

namespace Frame.Disturbed

variable {payload frame : Bytes} (disturbed : Frame.Disturbed payload frame)

include disturbed

theorem length_eq : frame.length = headerLength + payload.length := by
  cases disturbed with
  | header length changed => rw [List.length_append, length]
  | payload length short changed =>
    simp only [List.length_append, Checksum.length_header, length]

theorem exists_mismatch (nonempty : payload ≠ []) :
    ∃ stored actual, Image.openFrame frame = .error (.checksumMismatch stored actual) := by
  cases disturbed with
  | header length changed => exact (Image.openFrame_of_header length nonempty).resolve_left changed
  | @payload front old new back length short changed =>
    have nonempty : front ++ new ++ back ≠ [] := by
      rw [← List.length_pos_iff, List.length_append, List.length_append] at nonempty ⊢
      rwa [← length]
    have other : Checksum.of (front ++ old ++ back) ≠ Checksum.of (front ++ new ++ back) := by
      intro same
      exact Crc32.digest_ne_of_burst front back length short changed (congrArg Checksum.value same)
    exact ⟨_, _, Image.openFrame_of_error (Frame.verify_of_ne nonempty other)⟩

end Frame.Disturbed

namespace Image

/-- The image of some data in which only the frame of one chunk is disturbed. -/
structure Disturbed (data : Bytes) (index : Nat) (image : Bytes) : Prop where
  inside : payloadLength * index < data.length
  frame : ∃ frame,
    Frame.Disturbed ((data.drop (payloadLength * index)).take payloadLength) frame ∧
      image = (encode data).take (chunkLength * index) ++ frame ++
        (encode data).drop (chunkLength * (index + 1))

variable {data image : Bytes} {index : Nat}

/-- The first chunks of an image are the image of the data in them. -/
theorem take_encode (data : Bytes) (index : Nat) (inside : payloadLength * index ≤ data.length) :
    (encode data).take (chunkLength * index) = encode (data.take (payloadLength * index)) := by
  have length : (data.take (payloadLength * index)).length = payloadLength * index :=
    List.length_take_of_le inside
  have chunks := length_encode (data.take (payloadLength * index))
  rw [length, encodedLength_full] at chunks
  have apart := encode_append ⟨index, length⟩ (data.drop (payloadLength * index))
  rw [List.take_append_drop] at apart
  rw [apart, ← chunks, List.take_left]

/-- Behind its first chunks an image is the image of the data behind them, also if nothing is left. -/
theorem drop_encode_chunks (data : Bytes) (index : Nat) :
    (encode data).drop (chunkLength * index) = encode (data.drop (payloadLength * index)) := by
  rcases Nat.le_total (payloadLength * index) data.length with inside | past
  · exact drop_encode data index inside
  · have short := encodedLength_mono past
    rw [encodedLength_full, ← length_encode] at short
    rw [List.drop_of_length_le short, List.drop_of_length_le past, encode_nil]

namespace Disturbed

variable {data image : Bytes} {index : Nat} (disturbed : Disturbed data index image)

include disturbed

/-- The image with the disturbed frame, as an image of whole chunks, the frame and an image of what is
left. -/
theorem split :
    ∃ payload rest frame, data = data.take (payloadLength * index) ++ payload ++ rest ∧
      payloadLength ∣ (data.take (payloadLength * index)).length ∧
      payload ≠ [] ∧ payload.length ≤ payloadLength ∧
      (payload.length = payloadLength ∨ rest = []) ∧ Frame.Disturbed payload frame ∧
      image = encode (data.take (payloadLength * index)) ++ frame ++ encode rest := by
  obtain ⟨inside, frame, disturbed, rfl⟩ := disturbed
  have aligned : payloadLength ∣ (data.take (payloadLength * index)).length :=
    ⟨index, List.length_take_of_le (Nat.le_of_lt inside)⟩
  refine ⟨_, data.drop (payloadLength * (index + 1)), frame, ?_, aligned, ?_,
    List.length_take_le _ _, ?_, disturbed, ?_⟩
  · rw [List.append_assoc, Nat.mul_succ, ← List.drop_drop, List.take_append_drop,
      List.take_append_drop]
  · rw [← List.length_pos_iff, List.length_take, List.length_drop]
    simp only [payloadLength] at *
    omega
  · -- A payload that is not full takes all the data that are left.
    rw [List.length_take, List.length_drop, List.drop_eq_nil_iff, Nat.mul_succ]
    omega
  · rw [take_encode data index (Nat.le_of_lt inside), drop_encode_chunks]

theorem length_image : image.length = encodedLength data.length := by
  obtain ⟨payload, rest, frame, whole, aligned, nonempty, small, full, changed, rfl⟩ :=
    disturbed.split
  have sound : encode data = encode (data.take (payloadLength * index)) ++
      (Frame.ofPayload payload ++ encode rest) := by
    rw [← encode_append_block nonempty small full, ← encode_append aligned, ← List.append_assoc,
      ← whole]
  rw [← length_encode, sound]
  simp only [List.length_append, changed.length_eq, Frame.length_ofPayload, Nat.add_assoc]

/-- Only what lies in the chunks before the disturbed one comes out, and then the mismatch. -/
theorem exists_unpack :
    ∃ stored actual, unpack data.length image =
      ⟨data.take (payloadLength * index), some (.damage (.checksumMismatch stored actual))⟩ := by
  obtain ⟨payload, rest, frame, whole, aligned, nonempty, small, full, changed, rfl⟩ :=
    disturbed.split
  obtain ⟨stored, actual, bad⟩ := changed.exists_mismatch nonempty
  have stops := unpack_of_bad_frame aligned changed.length_eq nonempty small full bad
  rw [← whole] at stops
  exact ⟨stored, actual, stops⟩

end Disturbed

end Image

/-! ### Images of the right size out of which only some chunks come

What comes out before the damage is what an inspection finds, so all that reads or copies the image
gives these bytes and stops with that damage. -/

section

variable {size : Nat} {image bytes : Bytes} {found : Damage}
  (exact : image.length = encodedLength size)
  (stops : Image.unpack size image = ⟨bytes, some (.damage found)⟩)

include exact stops

theorem Image.inspect_of_unpack :
    (inspect image).bytes = bytes ∧ (inspect image).damage = some found := by
  have inspected := unpack_of_exact exact
  rw [stops] at inspected
  injection inspected with came failed
  refine ⟨came.symm, ?_⟩
  cases damage : (inspect image).damage with
  | none =>
    rw [damage] at failed
    cases failed
  | some other =>
    rw [damage] at failed
    cases failed
    rfl

theorem Image.decode_of_unpack (positive : 0 < size) : decode image = .ok (.error found) := by
  have first := encodedLength_first size positive
  rw [decode_of_inspect (.inr (by omega)), Inspection.result, (inspect_of_unpack exact stops).2]

theorem Image.copied_of_unpack (positive : 0 < size) :
    copied image (Piece.ofRange 0 size) = ⟨bytes, .error (.fault (.damage found))⟩ := by
  obtain ⟨bound, complete⟩ := length_unpack size image
  rw [stops] at bound complete
  have short : ¬ (size ≤ bytes.length ∨ 0 = size) := by
    rintro (all | none)
    · cases complete.mpr (Nat.le_antisymm bound all)
    · exact absurd none (Nat.ne_of_lt positive)
  have copy := copied_front stops (Nat.zero_le _) (Nat.zero_le size) (Nat.le_of_eq exact)
    (Nat.le_refl size)
  rwa [List.take_of_length_le bound, List.drop_zero, if_neg short] at copy

theorem Source.Yields.delivers_unpacked {ρ : Type} [Source ρ] {reader : ρ}
    (yields : Source.Yields reader (Image.unpack size image).bytes
      ((Image.unpack size image).failure.map DecodeError.toFinal)) :
    Source.Delivers reader bytes (some found) := by
  obtain ⟨came, damage⟩ := Image.inspect_of_unpack exact stops
  rw [Image.unpack_of_exact exact, Option.map_map] at yields
  have delivers := Source.Yields.delivers yields
  rwa [came, damage] at delivers

section

variable {ρ : Type} [Source ρ] {source : ρ} (supplies : Source.Supplies source image)

include supplies

theorem StreamDecoder.delivers_unpacked (scratch : Scratch) :
    Source.Delivers (create source scratch) bytes (some found) := by
  obtain ⟨came, damage⟩ := Image.inspect_of_unpack exact stops
  have delivers := (StreamDecoder.yields scratch supplies).delivers
  rwa [came, damage] at delivers

theorem SizedDecoder.delivers_unpacked (scratch : Scratch) :
    Source.Delivers (create source size scratch) bytes (some found) := by
  have yields := SizedDecoder.yields scratch supplies (Nat.le_of_eq exact)
  exact Source.Yields.delivers_unpacked exact stops yields

/-- The chunks come one by one, then the damage, then nothing. -/
theorem ChunkStream.nexts_unpacked (fits : image.length < offsetLimit) :
    ∃ row : List Chunk, (row.map Chunk.data).flatten = bytes ∧
      ∀ count, ∃ last, (create source).nexts count =
        .ok ((List.range count).map
          ((row.map .ok ++ [.error (.fault (.damage found))])[·]?), last) := by
  obtain ⟨came, damage⟩ := Image.inspect_of_unpack exact stops
  refine ⟨Chunk.row 0 (Image.inspect image).payloads, ?_, fun count => ?_⟩
  · rw [Chunk.map_data_row]
    exact came
  · have start : (ChunkStream.create source).offset + image.length < offsetLimit := by
      rwa [ChunkStream.create, Nat.zero_add]
    have answers := ChunkStream.nexts_of_supplies rfl supplies start count
    rwa [ChunkStream.answers, damage] at answers

end

section

variable {σ : Type} [ReadableStore σ] {store : σ} {contents : Bytes} {base : Nat}
  (serves : ReadableStore.Serves store contents) (stored : contents.drop base = image)
  (fits : base + encodedLength size < offsetLimit)

include serves stored fits

theorem RangeReader.delivers_unpacked (scratch : Scratch) :
    ∃ reader, create store base 0 size size scratch = .ok (.ok reader) ∧
      Source.Delivers reader bytes (some found) := by
  have region : (contents.drop base).take (encodedLength size) = image := by
    rw [stored, ← exact, List.take_length]
  obtain ⟨reader, created, yields⟩ := RangeReader.create_whole scratch serves fits
  rw [region] at yields
  exact ⟨reader, created, Source.Yields.delivers_unpacked exact stops yields⟩

theorem RangeCopy.run_unpacked (positive : 0 < size) (scratch : Scratch) {κ : Type} [Sink κ]
    {taken : κ → Bytes} {sink : κ} (accepts : Sink.Accepts taken sink) :
    ∃ last, run ⟨store, sink, scratch⟩ base 0 size =
        .ok (.error (.fault (.damage found)), last) ∧
      taken last.sink = taken sink ++ bytes := by
  have bounded := Bytes.length_lt_of_drop stored (by rwa [exact])
  obtain ⟨last, run, _, _, moved⟩ := (⟨store, sink, scratch⟩ : RangeCopy σ κ).run_copied
    (ReadableStore.Serves.stable contents) Sink.Accepts.perfect serves accepts bounded base 0 size
    fits
  rw [stored, Image.copied_of_unpack exact stops positive] at run moved
  exact ⟨last, run, moved⟩

theorem Archive.verify_unpacked (positive : 0 < size) (scratch : Scratch) :
    ∃ after, (⟨store, ⟨base, size⟩, scratch⟩ : Archive σ).verify =
      .ok (.error (.fault (.damage found)), after) := by
  have valid : (⟨base, size⟩ : Placement).validate = .ok () :=
    Placement.validate_eq_ok_iff.mpr (by rw [Nat.add_comm]; exact fits)
  have region : (⟨base, size⟩ : Placement).region contents = image := by
    rw [Placement.region, stored, ← exact, List.take_length]
  obtain ⟨after, run, _⟩ :=
    @verify_copied _ _ ⟨store, ⟨base, size⟩, scratch⟩ contents valid serves
  rw [region] at run
  dsimp only [logicalSize] at run
  rw [Image.copied_of_unpack exact stops positive] at run
  exact ⟨after, run⟩

end

end

/-- An image in which one chunk has changed within its header, or within four payload bytes in a row,
gives the data in the chunks before that one, and then the mismatch: read as a stream of unknown or of
known size, chunk by chunk, or as the whole range of a stored stream, and copied. Decoding at once and
verifying report the same mismatch. -/
theorem local_damage_detected (data image : Bytes) (index : Nat) (scratch : Scratch)
    (disturbed : Image.Disturbed data index image) :
    ∃ found : Damage, (∃ stored actual, found = .checksumMismatch stored actual) ∧
      Image.decode image = .ok (.error found) ∧
      (∀ (ρ : Type) [Source ρ] (source : ρ), Source.Supplies source image →
        Source.Delivers (StreamDecoder.create source scratch)
          (data.take (payloadLength * index)) (some found) ∧
        Source.Delivers (SizedDecoder.create source data.length scratch)
          (data.take (payloadLength * index)) (some found) ∧
        (image.length < offsetLimit → ∃ row : List Chunk,
          (row.map Chunk.data).flatten = data.take (payloadLength * index) ∧
          ∀ count, ∃ last, (ChunkStream.create source).nexts count =
            .ok ((List.range count).map
              ((row.map .ok ++ [.error (.fault (.damage found))])[·]?), last))) ∧
      ∀ (σ : Type) [ReadableStore σ] (store : σ) (contents : Bytes) (base : Nat),
        ReadableStore.Serves store contents → contents.drop base = image →
        base + image.length < offsetLimit →
        (∃ reader, RangeReader.create store base 0 data.length data.length scratch =
            .ok (.ok reader) ∧
          Source.Delivers reader (data.take (payloadLength * index)) (some found)) ∧
        (∀ (κ : Type) [Sink κ] (taken : κ → Bytes) (sink : κ), Sink.Accepts taken sink →
          ∃ last, RangeCopy.run ⟨store, sink, scratch⟩ base 0 data.length =
              .ok (.error (.fault (.damage found)), last) ∧
            taken last.sink = taken sink ++ data.take (payloadLength * index)) ∧
        ∃ after, (⟨store, ⟨base, data.length⟩, scratch⟩ : Archive σ).verify =
          .ok (.error (.fault (.damage found)), after) := by
  have exact := disturbed.length_image
  have positive : 0 < data.length := Nat.lt_of_le_of_lt (Nat.zero_le _) disturbed.inside
  obtain ⟨stored, actual, stops⟩ := disturbed.exists_unpack
  refine ⟨_, ⟨stored, actual, rfl⟩, Image.decode_of_unpack exact stops positive, ?sources, ?stores⟩
  case sources =>
    intro ρ _ source supplies
    refine ⟨?stream, ?sized, ?chunks⟩
    case stream => exact StreamDecoder.delivers_unpacked exact stops supplies scratch
    case sized => exact SizedDecoder.delivers_unpacked exact stops supplies scratch
    case chunks =>
      intro fits
      exact ChunkStream.nexts_unpacked exact stops supplies fits
  case stores =>
    intro σ _ store contents base serves stored fits
    rw [exact] at fits
    refine ⟨?reader, ?copy, ?verify⟩
    case reader => exact RangeReader.delivers_unpacked exact stops serves stored fits scratch
    case copy =>
      intro κ _ taken sink accepts
      exact RangeCopy.run_unpacked exact stops serves stored fits positive scratch accepts
    case verify =>
      exact Archive.verify_unpacked exact stops serves stored fits positive scratch

/-- Of three bytes the last two have changed under their checksum. No decoder gives any of the three,
and each reports that the checksum does not match. -/
theorem two_changed_bytes_detected :
    let image : Bytes := (Checksum.of [1, 2, 3]).header ++ [1, 4, 5]
    let feed : Feed := ⟨image, [.limit 2, .fail (.bare .interrupted)]⟩
    let medium : Medium := ⟨⟨image⟩, true, [.limit 1], [], []⟩
    ∃ stored actual,
      Image.decode image = .ok (.error (.checksumMismatch stored actual)) ∧
      Source.Delivers (StreamDecoder.create feed .zero) []
        (some (.checksumMismatch stored actual)) ∧
      ∃ after, (⟨medium, ⟨0, 3⟩, .zero⟩ : Archive Medium).verify =
        .ok (.error (.fault (.damage (.checksumMismatch stored actual))), after) := by
  intro image feed medium
  have disturbed : Image.Disturbed [1, 2, 3] 0 image := by
    refine ⟨by decide, image, ?_, ?_⟩
    · exact @Frame.Disturbed.payload [1] [2, 3] [4, 5] [] rfl (by decide) (by decide)
    · rw [Nat.mul_zero, List.take_zero, List.nil_append, List.drop_of_length_le, List.append_nil]
      rw [Image.length_encode]
      decide
  obtain ⟨found, ⟨stored, actual, rfl⟩, decode, sources, stores⟩ :=
    local_damage_detected [1, 2, 3] image 0 .zero disturbed
  have stream := (sources Feed feed (Feed.supplies (by decide))).1
  have verify := (stores Medium medium image 0 (Medium.serves (by decide)) rfl (by decide)).2.2
  exact ⟨stored, actual, decode, stream, verify⟩

end SealedStream
