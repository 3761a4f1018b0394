import SealedStream.Proofs.StreamDecoding

/-!
# All decoders agree

An image, sound or damaged, can be decoded at once, as a stream of known or unknown size, and chunk
by chunk. `decoders_agree` says that all four give the payloads of the frames in front of the first
that does not verify, and then the same damage or the end, however a source splits the image.
-/
namespace SealedStream

open Layout

namespace Inspection

/-- The data, or what is wrong with the first bad frame. -/
def result (inspection : Inspection) : Except Damage Bytes :=
  match inspection.damage with
  | none => .ok inspection.bytes
  | some found => .error found

end Inspection

namespace Image

/-! ### Decoding at once -/

theorem openFrame_of_error {frame : Bytes} {found : Damage} (bad : Frame.verify frame = .error found) :
    openFrame frame = .error found := by
  rw [openFrame, bad]
  rfl

theorem openFrame_of_ok {frame : Bytes} {sum : Checksum} (good : Frame.verify frame = .ok sum) :
    openFrame frame = .ok (Frame.payload frame) := by
  rw [openFrame, good]
  rfl

/-- Opening all frames stops at the first bad one. -/
theorem openFrames_eq (frames : List Bytes) :
    frames.mapM openFrame =
      match (inspectFrames frames).damage with
      | none => .ok (inspectFrames frames).payloads
      | some found => .error found := by
  induction frames with
  | nil => rfl
  | cons frame frames ih =>
    rw [List.mapM_cons, ih]
    cases verified : Frame.verify frame with
    | error found =>
      rw [openFrame_of_error verified]
      simp [inspectFrames, verified, bind, Except.bind]
    | ok sum =>
      rw [openFrame_of_ok verified]
      cases damage : (inspectFrames frames).damage with
      | none => simp [inspectFrames, verified, damage, Inspection.payloads, bind, Except.bind, pure, Except.pure]
      | some found => simp [inspectFrames, verified, damage, bind, Except.bind]

theorem decode_of_inspect {image : Bytes} (long : image.length = 0 ∨ headerLength ≤ image.length) :
    decode image = .ok (inspect image).result := by
  obtain ⟨size, exact⟩ := exists_logicalSize long
  rw [decode, exact, Checked.ok_bind, openFrames_eq, Inspection.result, Inspection.bytes, inspect]
  cases (inspectFrames (image.blocks chunkLength)).damage <;> rfl

/-! ### Decoding at a known size -/

/-- At the size that fits an image, its first payload is that of its first block. -/
theorem openFirst_of_exact {size : Nat} {image : Bytes} (positive : size ≠ 0)
    (exact : image.length = encodedLength size) :
    openFirst size image = (openFrame (image.take chunkLength)).mapError .damage := by
  have first := encodedLength_first size (Nat.pos_of_ne_zero positive)
  have same : image.take (headerLength + min size payloadLength) = image.take chunkLength := by
    rcases Nat.le_total payloadLength size with long | short
    · rw [Nat.min_eq_right long, headerLength_add_payloadLength]
    · rw [Nat.min_eq_left short, Nat.sub_self, encodedLength_zero] at first
      rw [← headerLength_add_payloadLength, List.take_of_length_le (by omega),
        List.take_of_length_le (by omega)]
  rw [openFirst, if_neg (by omega), same]

/-- At the size that fits an image, what comes out of it is what an inspection finds. -/
theorem unpack_of_exact {size : Nat} {image : Bytes} (exact : image.length = encodedLength size) :
    unpack size image = ⟨(inspect image).bytes, (inspect image).damage.map .damage⟩ := by
  induction size using Nat.strongRecOn generalizing image with
  | _ size ih =>
    by_cases none : size = 0
    · subst none
      obtain rfl : image = [] := List.eq_nil_of_length_eq_zero exact
      simp [Inspection.bytes, Inspection.payloads]
    have some : image ≠ [] := by
      have bound := le_encodedLength size
      apply List.length_pos_iff.mp
      omega
    have first := openFirst_of_exact none exact
    cases verified : Frame.verify (image.take chunkLength) with
    | error found =>
      rw [openFrame_of_error verified] at first
      rw [unpack_of_error none first, inspect_of_error some verified]
      rfl
    | ok sum =>
      rw [openFrame_of_ok verified] at first
      generalize opened : Frame.payload (image.take chunkLength) = payload at first
      obtain ⟨nonempty, length, _⟩ := length_of_openFirst first
      have positive : 0 < payload.length := List.length_pos_iff.mpr nonempty
      have split := encodedLength_first size (Nat.pos_of_ne_zero none)
      have chunk := headerLength_add_payloadLength
      rw [← length] at split
      -- A payload that is not full takes all of the size, so nothing is left behind its chunk.
      have rest : (image.drop chunkLength).length = encodedLength (size - payload.length) := by
        rw [List.length_drop, exact, split]
        rcases Nat.le_total payloadLength size with long | short
        · omega
        · have ended : size - payload.length = 0 := by omega
          rw [ended, encodedLength_zero]
          omega
      rw [unpack_of_ok none first, ih _ (by omega) rest, inspect_of_ok some verified]
      simp [Inspection.bytes, Inspection.payloads, opened]

end Image

/-! ### Reading -/

namespace Source

variable {ρ : Type} [Source ρ]

/-- Reading on, whatever the buffers, brings the data and then the end, or an error that carries the
damage if there is some. -/
def Delivers (reader : ρ) (data : Bytes) (damage : Option Damage) : Prop :=
  ∀ rooms : List Nat, (∀ room ∈ rooms, 0 < room) →
    ∃ drained last, drain reader rooms = .ok (drained, last) ∧ drained.bytes <+: data ∧
      (data.length < rooms.length → drained.bytes = data ∧
        match damage with
        | none => drained.progress = .ended
        | some found => ∃ error, drained.progress = .failed error ∧
            StreamError.ofIo error = .fault (.damage found))

/-- A reader that yields what an inspection finds delivers it. -/
theorem Yields.delivers {reader : ρ} {inspection : Inspection}
    (yields : Yields reader inspection.bytes inspection.failure) :
    Delivers reader inspection.bytes inspection.damage := by
  intro rooms positive
  obtain ⟨drained, last, run, front, all⟩ := yields.drain_front rooms positive
  refine ⟨drained, last, run, front, fun enough => ?_⟩
  rw [all enough, Inspection.failure]
  cases inspection.damage with
  | none => exact ⟨rfl, rfl⟩
  | some found => exact ⟨rfl, _, rfl, rfl⟩

end Source

/-- All decoders give the payloads of the frames in front of the first that does not verify, and then
its damage; if all verify, all payloads and then the end. A chunk stream numbers the chunks by their
offsets and gives nothing once it has ended. -/
theorem decoders_agree {ρ : Type} [Source ρ] (source : ρ) (image : Bytes) (scratch : Scratch)
    (supplies : Source.Supplies source image) :
    ∃ (inspection : Inspection) (others : List Bytes),
      image.blocks chunkLength = inspection.sound ++ others ∧
      (∀ frame ∈ inspection.sound, ∃ sum, Frame.verify frame = .ok sum) ∧
      others.head?.map Frame.verify = inspection.damage.map .error ∧
      Source.Delivers (StreamDecoder.create source scratch) inspection.bytes inspection.damage ∧
      (image.length < offsetLimit → ∃ chunks : List Chunk,
        chunks.map Chunk.data = inspection.payloads ∧
        chunks.map Chunk.encoded = inspection.sound ∧
        (∀ chunk ∈ chunks, chunk.checksum = .of chunk.data) ∧
        (∀ chunk, chunks.head? = some chunk → chunk.offset = 0) ∧
        (∀ index chunk next, chunks[index]? = some chunk → chunks[index + 1]? = some next →
          chunk.stop = .ok next.offset) ∧
        ∀ count, ∃ last, (ChunkStream.create source).nexts count =
          .ok ((List.range count).map ((chunks.map .ok ++ inspection.damage.toList.map fun found =>
            .error (.fault (.damage found)))[·]?), last)) ∧
      (image.length ∉ [1, 2, 3] → Image.decode image = .ok inspection.result) ∧
      (image.length % chunkLength ∉ [1, 2, 3, 4] →
        ∃ size, logicalSize image.length = .ok size ∧
          Source.Delivers (SizedDecoder.create source size scratch) inspection.bytes
            inspection.damage) := by
  obtain ⟨others, split, sound, damage⟩ := Image.inspectFrames_spec (image.blocks chunkLength)
  refine ⟨Image.inspect image, others, split, sound, damage, ?stream, ?chunks, ?whole, ?sized⟩
  case stream => exact (StreamDecoder.yields scratch supplies).delivers
  case chunks =>
    intro short
    have bound := Image.length_bytes_inspect_le image
    have fits : 0 + (Image.inspect image).bytes.length < offsetLimit := by omega
    refine ⟨Chunk.row 0 (Image.inspect image).payloads, Chunk.map_data_row 0 _, ?_,
      fun _ => Chunk.checksum_of_mem_row, fun _ => Chunk.offset_head_row,
      fun _ _ _ => Chunk.stop_of_row fits, fun count => ?_⟩
    · rw [Chunk.map_encoded_row]
      exact Image.ofPayload_payloads image
    · have start : (ChunkStream.create source).offset + image.length < offsetLimit := by
        rwa [ChunkStream.create, Nat.zero_add]
      exact ChunkStream.nexts_of_supplies rfl supplies start count
  case whole =>
    intro long
    apply Image.decode_of_inspect
    simp only [List.mem_cons, List.not_mem_nil, headerLength] at *
    omega
  case sized =>
    intro payload
    have whole : image.length % chunkLength = 0 ∨ headerLength < image.length % chunkLength := by
      simp only [List.mem_cons, List.not_mem_nil, headerLength] at *
      omega
    obtain ⟨size, exact, fits⟩ := exists_encodedLength whole
    refine ⟨size, exact, ?_⟩
    have yields := SizedDecoder.yields scratch supplies (Nat.le_of_eq fits.symm)
    rw [Image.unpack_of_exact fits.symm, Option.map_map] at yields
    exact Source.Yields.delivers yields

/-- Five bytes whose header does not match, from a source that splits and interrupts: no data comes out
of any decoder, and each reports the mismatch. -/
theorem five_bytes_rejected_alike :
    let feed : Feed := ⟨[0, 0, 0, 0, 9], [.limit 2, .fail (.bare .interrupted)]⟩
    let damage : Damage := .checksumMismatch 0 (Crc32.digest [9])
    Source.Delivers (StreamDecoder.create feed .zero) [] (some damage) ∧
    (∃ last, (ChunkStream.create feed).nexts 2 =
      .ok ([some (.error (.fault (.damage damage))), none], last)) ∧
    Image.decode feed.bytes = .ok (.error damage) ∧
    Source.Delivers (SizedDecoder.create feed 1 .zero) [] (some damage) := by
  intro feed damage
  have supplies : Source.Supplies feed feed.bytes := Feed.supplies (by decide)
  have rejected : Frame.verify [0, 0, 0, 0, 9] = .error damage := by rfl
  have one : feed.bytes.blocks chunkLength = [feed.bytes] := by
    have block := Bytes.blocks_append_block (by decide : feed.bytes ≠ [])
      (by decide : feed.bytes.length ≤ chunkLength) (.inr rfl)
    simpa using block
  obtain ⟨⟨sound, found⟩, others, split, verified, bad, stream, chunks, whole, sized⟩ :=
    decoders_agree feed feed.bytes .zero supplies
  rw [one] at split
  cases sound with
  | cons frame frames =>
    obtain ⟨rfl, _⟩ := List.cons.inj split
    obtain ⟨sum, accepted⟩ := verified _ List.mem_cons_self
    cases rejected.symm.trans accepted
  | nil =>
    obtain rfl : others = [feed.bytes] := split.symm
    obtain rfl : found = some damage := by
      cases found with
      | none => cases bad
      | some found =>
        injection bad with same
        injection rejected.symm.trans same with same
        rw [same]
    obtain ⟨row, _, encoded, _, _, _, nexts⟩ := chunks (by decide)
    obtain rfl : row = [] := List.map_eq_nil_iff.mp encoded
    obtain ⟨size, exact, known⟩ := sized (by decide)
    obtain rfl : 1 = size := Except.ok.inj ((logicalSize_encodedLength 1).symm.trans exact)
    exact ⟨stream, nexts 2, whole (by decide), known⟩

end SealedStream
