import SealedStream.Image
import SealedStream.Proofs.Sizes

/-!
# Canonicity of the encoding

Payload blocks are four bytes shorter than the frames they are sealed in, so the two cuts of a
stream, into payloads and into frames, fall together chunk by chunk. `encode_append_block` states
this for the first chunk, and both directions of `decode_eq_ok_iff` follow by induction on the cut:
the images that decode are those that encoding writes.
-/
namespace SealedStream

namespace Bytes

@[simp] theorem blocks_nil (size : Nat) : blocks size [] = [] := by
  rw [blocks, if_pos rfl]

theorem blocks_of_ne_nil {size : Nat} {bytes : Bytes} (positive : size ≠ 0) (nonempty : bytes ≠ []) :
    blocks size bytes = bytes.take size :: blocks size (bytes.drop size) := by
  rw [blocks, if_neg nonempty, if_neg positive]

/-- A block that is full, or behind which nothing comes, is the first of a cut. -/
theorem blocks_append_block {size : Nat} {block rest : Bytes} (nonempty : block ≠ [])
    (small : block.length ≤ size) (full : block.length = size ∨ rest = []) :
    blocks size (block ++ rest) = block :: blocks size rest := by
  have positive : size ≠ 0 := by
    have := List.length_pos_iff.mpr nonempty
    omega
  rw [blocks_of_ne_nil positive (by simp [nonempty])]
  rcases full with rfl | rfl
  · rw [List.take_left, List.drop_left]
  · rw [List.append_nil, List.take_of_length_le small, List.drop_of_length_le small]

end Bytes

namespace Image

open Layout

@[simp] theorem encode_nil : encode [] = [] := by
  simp [encode]

/-- A payload that is full, or behind which nothing comes, makes the first chunk of an image. -/
theorem encode_append_block {payload rest : Bytes} (nonempty : payload ≠ [])
    (small : payload.length ≤ payloadLength)
    (full : payload.length = payloadLength ∨ rest = []) :
    encode (payload ++ rest) = Frame.ofPayload payload ++ encode rest := by
  rw [encode, Bytes.blocks_append_block nonempty small full, List.flatMap_cons, encode]

/-- An image is the frame of the first payload and the image of what is behind it. -/
theorem encode_of_ne_nil {data : Bytes} (some : data ≠ []) :
    encode data = Frame.ofPayload (data.take payloadLength) ++ encode (data.drop payloadLength) := by
  rw [encode, Bytes.blocks_of_ne_nil (by decide) some, List.flatMap_cons, encode]

/-- The image of a nonempty run of bytes starts with the frame of as many of them as fit a chunk. -/
theorem encode_first {data : Bytes} (some : data ≠ []) {length : Nat}
    (exact : length = min data.length payloadLength) :
    encode data = Frame.ofPayload (data.take length) ++ encode (data.drop length) := by
  have positive : 0 < data.length := List.length_pos_iff.mpr some
  have taken : (data.take length).length = length := by
    rw [List.length_take]
    omega
  have nonempty : data.take length ≠ [] := by
    apply List.length_pos_iff.mp
    rw [taken, exact]
    exact Nat.lt_min.mpr ⟨positive, by decide⟩
  -- Data that fit one chunk leave nothing behind it.
  have full : (data.take length).length = payloadLength ∨ data.drop length = [] := by
    rcases Nat.le_total data.length payloadLength with short | long
    · exact .inr (List.drop_of_length_le (by omega))
    · exact .inl (by omega)
  have first := encode_append_block nonempty (by omega) full
  rwa [List.take_append_drop] at first

/-- Every nonempty run of bytes is a first payload and what follows it. -/
theorem exists_block {data : Bytes} (nonempty : data ≠ []) :
    ∃ payload rest, data = payload ++ rest ∧ payload ≠ [] ∧ payload.length ≤ payloadLength ∧
      (payload.length = payloadLength ∨ rest = []) := by
  refine ⟨data.take payloadLength, data.drop payloadLength, (List.take_append_drop _ _).symm, ?_,
    List.length_take_le _ _, ?_⟩
  · simpa [payloadLength] using nonempty
  · by_cases long : payloadLength ≤ data.length
    · exact .inl (List.length_take_of_le long)
    · exact .inr (List.drop_of_length_le (by omega))

/-- Induction along the chunks of the data. -/
theorem chunk_induction {motive : Bytes → Prop} (data : Bytes) (empty : motive [])
    (chunk : ∀ payload rest, payload ≠ [] → payload.length ≤ payloadLength →
      (payload.length = payloadLength ∨ rest = []) → motive rest → motive (payload ++ rest)) :
    motive data := by
  by_cases nonempty : data = []
  · rwa [nonempty]
  · obtain ⟨payload, rest, split, some, small, full⟩ := exists_block nonempty
    have shorter : rest.length < data.length := by
      have := List.length_pos_iff.mpr some
      rw [split, List.length_append]
      omega
    rw [split]
    exact chunk payload rest some small full (chunk_induction rest empty chunk)
termination_by data.length

theorem length_encode (data : Bytes) : (encode data).length = encodedLength data.length := by
  induction data using chunk_induction with
  | empty => simp
  | chunk payload rest nonempty small full ih =>
    rw [encode_append_block nonempty small full, List.length_append, ih, Frame.length_ofPayload,
      List.length_append]
    have positive : 0 < payload.length := List.length_pos_iff.mpr nonempty
    -- A full payload takes a chunk of its own; a short one is the last.
    rcases full with full | rfl
    · have next := encodedLength_add 1 rest.length
      rw [Nat.mul_one, Nat.mul_one, ← headerLength_add_payloadLength] at next
      rw [full, next]
    · rw [List.length_nil, Nat.add_zero, encodedLength_zero, Nat.add_zero,
        encodedLength_of_le _ positive small]

/-- The first payload of whole chunks is full, and whole chunks follow it. -/
theorem aligned_block {payload rest : Bytes} (nonempty : payload ≠ [])
    (small : payload.length ≤ payloadLength) (full : payload.length = payloadLength ∨ rest = [])
    (aligned : payloadLength ∣ (payload ++ rest).length) :
    payload.length = payloadLength ∧ payloadLength ∣ rest.length := by
  have exact : payload.length = payloadLength := by
    rcases full with full | rfl
    · exact full
    · have positive : 0 < payload.length := List.length_pos_iff.mpr nonempty
      rw [List.append_nil] at aligned
      exact Nat.le_antisymm small (Nat.le_of_dvd positive aligned)
  refine ⟨exact, ?_⟩
  rw [List.length_append, exact] at aligned
  exact (Nat.dvd_add_right (Nat.dvd_refl _)).mp aligned

/-- What lies behind whole chunks is encoded on its own. -/
theorem encode_append {front : Bytes} (aligned : payloadLength ∣ front.length) (rest : Bytes) :
    encode (front ++ rest) = encode front ++ encode rest := by
  induction front using chunk_induction with
  | empty => simp
  | chunk payload middle nonempty small full ih =>
    obtain ⟨exact, tail⟩ := aligned_block nonempty small full aligned
    rw [List.append_assoc, encode_append_block nonempty small (.inl exact), ih tail,
      encode_append_block nonempty small full, List.append_assoc]

/-- Behind its first chunks, an image is the image of the data behind their payloads. -/
theorem drop_encode (data : Bytes) (index : Nat) (inside : payloadLength * index ≤ data.length) :
    (encode data).drop (chunkLength * index) = encode (data.drop (payloadLength * index)) := by
  have length : (data.take (payloadLength * index)).length = payloadLength * index :=
    List.length_take_of_le inside
  have chunks := length_encode (data.take (payloadLength * index))
  rw [length, encodedLength_full] at chunks
  have apart := encode_append ⟨index, length⟩ (data.drop (payloadLength * index))
  rw [List.take_append_drop] at apart
  rw [apart, ← chunks, List.drop_left]

/-- A nonempty payload that fits a chunk makes one frame. -/
theorem encode_block {payload : Bytes} (nonempty : payload ≠ [])
    (small : payload.length ≤ payloadLength) : encode payload = Frame.ofPayload payload := by
  have one := encode_append_block nonempty small (.inr rfl)
  simpa using one

/-- Behind whole chunks, a payload that fits a chunk makes the last frame. -/
theorem encode_last {chunks payload : Bytes} (aligned : payloadLength ∣ chunks.length)
    (nonempty : payload ≠ []) (small : payload.length ≤ payloadLength) :
    encode (chunks ++ payload) = encode chunks ++ Frame.ofPayload payload := by
  rw [encode_append aligned, encode_block nonempty small]

/-- The frames of an image are the sealed payloads of the data. -/
theorem blocks_encode (data : Bytes) :
    (encode data).blocks chunkLength = (data.blocks payloadLength).map Frame.ofPayload := by
  induction data using chunk_induction with
  | empty => simp
  | chunk payload rest nonempty small full ih =>
    have frame_length : (Frame.ofPayload payload).length = headerLength + payload.length :=
      Frame.length_ofPayload payload
    have frame_full : (Frame.ofPayload payload).length = chunkLength ∨ encode rest = [] := by
      rcases full with full | rfl
      · exact .inl (by rw [frame_length, full, headerLength_add_payloadLength])
      · exact .inr encode_nil
    rw [encode_append_block nonempty small full,
      Bytes.blocks_append_block nonempty small full, List.map_cons, ← ih]
    apply Bytes.blocks_append_block (Frame.ofPayload_ne_nil payload) _ frame_full
    rw [frame_length, ← headerLength_add_payloadLength]
    omega

/-- The frames that open are the sealed payloads, and each opens to its payload. -/
theorem openFrame_eq_ok_iff {frame payload : Bytes} :
    openFrame frame = .ok payload ↔ payload ≠ [] ∧ frame = Frame.ofPayload payload := by
  constructor
  · intro opened
    unfold openFrame at opened
    cases verified : Frame.verify frame with
    | error found => simp [verified, bind, Except.bind] at opened
    | ok sum =>
      obtain ⟨bytes, nonempty, rfl, _⟩ := Frame.verify_eq_ok_iff.mp verified
      have same : bytes = payload := by
        simpa [verified, bind, Except.bind, pure, Except.pure] using opened
      exact ⟨same ▸ nonempty, by rw [same]⟩
  · rintro ⟨nonempty, rfl⟩
    have verified := Frame.verify_eq_ok_iff.mpr ⟨payload, nonempty, rfl, rfl⟩
    simp [openFrame, verified, bind, Except.bind, pure, Except.pure]

theorem openFrames_cons_eq_ok_iff {frame : Bytes} {frames payloads : List Bytes} :
    (frame :: frames).mapM openFrame = .ok payloads ↔
      ∃ payload rest, openFrame frame = .ok payload ∧ frames.mapM openFrame = .ok rest ∧
        payloads = payload :: rest := by
  rw [List.mapM_cons]
  cases opened : openFrame frame with
  | error found => simp [bind, Except.bind]
  | ok payload =>
    cases others : frames.mapM openFrame with
    | error found => simp [bind, Except.bind]
    | ok rest => simp [bind, Except.bind, pure, Except.pure, eq_comm]

/-- The sealed payloads of the data open to the payloads. -/
theorem openFrames_encode (data : Bytes) :
    ((encode data).blocks chunkLength).mapM openFrame = .ok (data.blocks payloadLength) := by
  rw [blocks_encode]
  induction data using chunk_induction with
  | empty => simp [pure, Except.pure]
  | chunk payload rest nonempty small full ih =>
    rw [Bytes.blocks_append_block nonempty small full, List.map_cons]
    exact openFrames_cons_eq_ok_iff.mpr
      ⟨payload, _, openFrame_eq_ok_iff.mpr ⟨nonempty, rfl⟩, ih, rfl⟩

/-- An image all of whose frames open is what encoding their payloads gives. No frame but the last
can be short, since the cut into frames leaves only the last one short. -/
theorem encode_of_openFrames (image : Bytes) (payloads : List Bytes)
    (opened : (image.blocks chunkLength).mapM openFrame = .ok payloads) :
    image = encode payloads.flatten := by
  fun_induction Bytes.blocks chunkLength image generalizing payloads with
  | case1 =>
    have none : payloads = [] := by
      simpa [pure, Except.pure, eq_comm] using opened
    simp [none]
  | case2 => contradiction
  | case3 image nonempty _ ih =>
    obtain ⟨payload, rest, first, others, rfl⟩ := openFrames_cons_eq_ok_iff.mp opened
    obtain ⟨some, frame⟩ := openFrame_eq_ok_iff.mp first
    have tail := ih rest others
    have length : (image.take chunkLength).length = headerLength + payload.length := by
      rw [frame, Frame.length_ofPayload]
    rw [List.length_take, ← headerLength_add_payloadLength] at length
    have full : payload.length = payloadLength ∨ rest.flatten = [] := by
      by_cases long : chunkLength ≤ image.length
      · rw [← headerLength_add_payloadLength] at long
        exact .inl (by omega)
      · -- Nothing is left behind a short frame, and nothing decodes to nothing only.
        have ended : image.drop chunkLength = [] := List.drop_of_length_le (by omega)
        have empty := congrArg List.length (tail.symm.trans ended)
        rw [length_encode, List.length_nil] at empty
        have bound := le_encodedLength rest.flatten.length
        exact .inr (List.length_eq_zero_iff.mp (by omega))
    calc
      image = image.take chunkLength ++ image.drop chunkLength := (List.take_append_drop _ _).symm
      _ = Frame.ofPayload payload ++ encode rest.flatten := by rw [frame, tail]
      _ = encode (payload ++ rest.flatten) := (encode_append_block some (by omega) full).symm

/-- The images that decode are those that encoding writes, and each decodes to the data it was
written from. -/
theorem decode_eq_ok_iff (image data : Bytes) :
    decode image = .ok (.ok data) ↔ image = encode data := by
  constructor
  · intro decoded
    obtain ⟨size, _, rest⟩ := Checked.bind_eq_ok_iff.mp decoded
    cases opened : (image.blocks chunkLength).mapM openFrame with
    | error found => simp [opened, pure, Except.pure, Except.map] at rest
    | ok payloads =>
      have same : payloads.flatten = data := by
        simpa [opened, pure, Except.pure, Except.map] using rest
      rw [← same]
      exact encode_of_openFrames image payloads opened
  · rintro rfl
    -- The size of an image is checked before its frames are opened, and it fits the data.
    apply Checked.bind_eq_ok_iff.mpr
    refine ⟨data.length, ?_, ?_⟩
    · rw [length_encode]
      exact logicalSize_encodedLength data.length
    · rw [openFrames_encode]
      simp [pure, Except.pure, Except.map, Bytes.blocks_flatten]

end Image

end SealedStream
