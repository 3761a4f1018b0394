import SealedStream.Proofs.DamagedRanges
import SealedStream.Proofs.DecoderAgreement
import SealedStream.Proofs.Returning
import SealedStream.Proofs.SizeConversion

/-!
# Decoding arbitrary bytes

A frame may be too short to have anything behind its header, and of arbitrary bytes the last frame may
be so. `decodeSliced` is the decoder with each step past a header checked, and `decodeSliced_eq` says
that no check fails: only frames that have a payload get that far. What can stop a decoder is the size
that it computes beforehand, from the length of bytes that have not been looked at yet. That happens
for one to three bytes and for nothing else (`decode_answers_iff`).
-/
namespace SealedStream

open Layout

/-- Bytes that fit one block are one. -/
theorem Bytes.blocks_of_length_le {size : Nat} {bytes : Bytes} (nonempty : bytes ≠ [])
    (fits : bytes.length ≤ size) : blocks size bytes = [bytes] := by
  have one := blocks_append_block nonempty fits (.inr rfl)
  simpa using one

namespace Frame

/-- The bytes behind the header. It stops at a frame that ends before its header does. -/
def behindHeader (frame : Bytes) : Checked Bytes :=
  if headerLength ≤ frame.length then .ok (payload frame) else .error .outOfBounds

/-- Verification that checks its step past the header. -/
def verifySliced (frame : Bytes) : Checked (Except Damage Checksum) :=
  match Checksum.ofHeader? frame with
  | none => return .error (.malformedChunk frame.length)
  | some stored =>
    if frame.length ≤ headerLength then return .error (.malformedChunk frame.length)
    else do
      let actual := Checksum.of (← behindHeader frame)
      if stored = actual then return .ok stored
      else return .error (.checksumMismatch stored.value actual.value)

theorem behindHeader_eq_ok {frame : Bytes} (long : headerLength ≤ frame.length) :
    behindHeader frame = .ok (payload frame) :=
  if_pos long

/-- Verification looks behind the header of a longer frame only. -/
theorem verifySliced_eq (frame : Bytes) : verifySliced frame = .ok (verify frame) := by
  unfold verifySliced verify
  cases Checksum.ofHeader? frame with
  | none => rfl
  | some stored =>
    dsimp only
    by_cases short : frame.length ≤ headerLength
    · rw [if_pos short, if_pos short]
      rfl
    · rw [if_neg short, if_neg short, behindHeader_eq_ok (Nat.le_of_not_le short), Checked.ok_bind]
      split <;> rfl

theorem verify_of_short {frame : Bytes} (short : frame.length ≤ headerLength) :
    verify frame = .error (.malformedChunk frame.length) := by
  unfold verify
  split
  next => rfl
  next => rw [if_pos short]

/-- What is wrong with a frame is that it has no payload, or that the payload does not match. -/
theorem damage_of_verify {frame : Bytes} {found : Damage} (bad : verify frame = .error found) :
    (frame.length ≤ headerLength ∧ found = .malformedChunk frame.length) ∨
      (headerLength < frame.length ∧ ∃ stored actual, found = .checksumMismatch stored actual) := by
  rcases Nat.lt_or_ge headerLength frame.length with long | short
  · exact .inr ⟨long, mismatch_of_long long bad⟩
  · rw [verify_of_short short] at bad
    cases bad
    exact .inl ⟨short, rfl⟩

end Frame

namespace Image

/-- Verifies the frames one after the other, and puts what each has behind its header behind what has
been decoded before. -/
def openSliced (decoded : Bytes) : List Bytes → Checked (Except Damage Bytes)
  | [] => return .ok decoded
  | frame :: frames => do
    match ← Frame.verifySliced frame with
    | .error found => return .error found
    | .ok _ => openSliced (decoded ++ (← Frame.behindHeader frame)) frames

/-- Decoding that checks every step past a header. -/
def decodeSliced (image : Bytes) : Checked (Except Damage Bytes) := do
  let _ ← logicalSize image.length
  openSliced [] (image.blocks chunkLength)

/-- A frame that verifies has something behind its header, so no frame stops the loop. -/
theorem openSliced_eq (decoded : Bytes) (frames : List Bytes) :
    openSliced decoded frames =
      .ok ((frames.mapM openFrame).map fun payloads => decoded ++ payloads.flatten) := by
  induction frames generalizing decoded with
  | nil => simp [openSliced, pure, Except.pure, Except.map]
  | cons frame frames ih =>
    -- The step past the header is taken only once the frame has verified, and then it is long enough.
    rw [openSliced, Frame.verifySliced_eq, Checked.ok_bind, List.mapM_cons]
    cases verified : Frame.verify frame with
    | error found =>
      rw [openFrame_of_error verified]
      rfl
    | ok sum =>
      have long := Nat.le_of_lt (Frame.long_of_verify verified)
      rw [openFrame_of_ok verified]
      dsimp only
      rw [Frame.behindHeader_eq_ok long, Checked.ok_bind, ih]
      cases frames.mapM openFrame with
      | error found => rfl
      | ok payloads => simp [bind, Except.bind, pure, Except.pure, Except.map]

/-- No step past a header is out of bounds, whatever is decoded. -/
theorem decodeSliced_eq (image : Bytes) : decodeSliced image = decode image := by
  unfold decodeSliced decode
  cases logicalSize image.length with
  | error trap => rfl
  | ok size =>
    rw [Checked.ok_bind, Checked.ok_bind, openSliced_eq]
    rfl

/-- The result of an inspection that has found damage is the damage of some frame, and the frames
before that one verify. -/
theorem exists_bad_frame {image : Bytes} {found : Damage}
    (damaged : (inspect image).result = .error found) :
    ∃ sound frame others, image.blocks chunkLength = sound ++ frame :: others ∧
      (∀ earlier ∈ sound, ∃ sum, Frame.verify earlier = .ok sum) ∧
      Frame.verify frame = .error found := by
  obtain ⟨others, split, sound, damage⟩ := inspectFrames_spec (image.blocks chunkLength)
  have same : (inspectFrames (image.blocks chunkLength)).damage = some found := by
    unfold Inspection.result at damaged
    split at damaged
    next => cases damaged
    next other present =>
      cases damaged
      exact present
  rw [same] at damage
  cases others with
  | nil => cases damage
  | cons frame others => exact ⟨_, frame, others, split, sound, Option.some.inj damage⟩

/-- One to three bytes are fewer than the header of the one frame that they would be. -/
theorem decode_of_few {image : Bytes} (few : image.length ∈ [1, 2, 3]) :
    decode image = .error .overflow := by
  rw [decode, logicalSize_eq_overflow_iff.mpr few]
  rfl

theorem decode_of_not_few {image : Bytes} (enough : image.length ∉ [1, 2, 3]) :
    decode image = .ok (inspect image).result := by
  apply decode_of_inspect
  rw [mem_part_of_header_iff] at enough
  omega

/-- Decoding answers for all bytes but one, two or three of them, and its steps past headers are never
out of bounds. What it then finds is data of the size computed beforehand, or what is wrong with the
first bad frame: that it is no longer than a header, or that its payload does not match. Of one to
three bytes, which are one frame too short for a header, the size cannot be computed. -/
theorem decode_answers_iff (image : Bytes) :
    decodeSliced image = decode image ∧
    ((∃ reply, decode image = .ok reply) ↔ image.length ∉ [1, 2, 3]) ∧
    (∀ data, decode image = .ok (.ok data) → logicalSize image.length = .ok data.length) ∧
    (∀ found, decode image = .ok (.error found) → ∃ sound frame others,
      image.blocks chunkLength = sound ++ frame :: others ∧
      (∀ earlier ∈ sound, ∃ sum, Frame.verify earlier = .ok sum) ∧
      Frame.verify frame = .error found ∧
      ((frame.length ≤ headerLength ∧ found = .malformedChunk frame.length) ∨
        (headerLength < frame.length ∧ ∃ stored actual, found = .checksumMismatch stored actual))) ∧
    (image.length ∈ [1, 2, 3] → decode image = .error .overflow ∧
      image.blocks chunkLength = [image] ∧
      Frame.verify image = .error (.malformedChunk image.length)) := by
  have enough : ∀ {reply}, decode image = .ok reply → image.length ∉ [1, 2, 3] := by
    intro reply answer few
    cases (decode_of_few few).symm.trans answer
  refine ⟨decodeSliced_eq image, ⟨fun ⟨_, answer⟩ => enough answer,
    fun many => ⟨_, decode_of_not_few many⟩⟩, fun data decoded => ?data, fun found decoded => ?damage,
    fun few => ⟨decode_of_few few, ?frame⟩⟩
  case data =>
    rw [(decode_eq_ok_iff image data).mp decoded, length_encode]
    exact logicalSize_encodedLength data.length
  case damage =>
    -- The decoder answers what an inspection of all frames finds, and that is the first bad frame.
    have inspected := decode_of_not_few (enough decoded)
    obtain ⟨sound, frame, others, split, verified, bad⟩ :=
      exists_bad_frame (Except.ok.inj (inspected.symm.trans decoded))
    exact ⟨sound, frame, others, split, verified, bad, Frame.damage_of_verify bad⟩
  case frame =>
    obtain ⟨some, short⟩ := mem_part_of_header_iff.mp few
    have one : image.length ≤ chunkLength := Nat.le_trans (Nat.le_of_lt short) (by decide)
    exact ⟨Bytes.blocks_of_length_le (List.length_pos_iff.mp some) one,
      Frame.verify_of_short (Nat.le_of_lt short)⟩

/-- A single byte stops decoding. It is a frame that is too short, and verification says so. -/
theorem decode_stopped_by_one_byte :
    decode [1] = .error .overflow ∧ Bytes.blocks chunkLength [1] = [[1]] ∧
      Frame.verify [1] = .error (.malformedChunk 1) :=
  ⟨rfl, Bytes.blocks_of_length_le (by decide) (by decide), rfl⟩

end Image

end SealedStream
