import SealedStream.Proofs.SizedDecoding
import SealedStream.Reader.ChunkStream
import SealedStream.Reader.StreamDecoder

/-!
# What decoders of unknown size yield

`Image.inspect` cuts an image into frames and says which come before the first that does not verify,
and what is wrong with that one. Both readers of unknown size take frame after frame from their
source by `Frames.next`, which `Frames.next_of_supplies` ties to the inspection. From it follows what
a stream decoder yields (`StreamDecoder.yields`) and what a chunk stream gives call by call
(`ChunkStream.nexts_of_supplies`).
-/
namespace SealedStream

open Layout

/-- The frames of an image before the first that does not verify, and what is wrong with that one. -/
structure Inspection where
  sound : List Bytes
  damage : Option Damage

namespace Inspection

def payloads (inspection : Inspection) : List Bytes :=
  inspection.sound.map Frame.payload

/-- The data in the sound frames. -/
def bytes (inspection : Inspection) : Bytes :=
  inspection.payloads.flatten

theorem length_bytes_le (inspection : Inspection) :
    inspection.bytes.length ≤ inspection.sound.flatten.length := by
  rw [bytes, payloads]
  induction inspection.sound with
  | nil => exact Nat.le_refl _
  | cons frame frames ih =>
    simp only [List.map_cons, List.flatten_cons, List.length_append, Frame.payload, List.length_drop]
    omega

end Inspection

namespace Image

def inspectFrames : List Bytes → Inspection
  | [] => ⟨[], none⟩
  | frame :: frames =>
    match Frame.verify frame with
    | .error found => ⟨[], some found⟩
    | .ok _ => ⟨frame :: (inspectFrames frames).sound, (inspectFrames frames).damage⟩

def inspect (image : Bytes) : Inspection :=
  inspectFrames (image.blocks chunkLength)

@[simp] theorem inspect_nil : inspect [] = ⟨[], none⟩ := by
  simp [inspect, inspectFrames]

variable {image : Bytes}

theorem inspect_of_error (some : image ≠ []) {found : Damage}
    (bad : Frame.verify (image.take chunkLength) = .error found) :
    inspect image = ⟨[], .some found⟩ := by
  rw [inspect, Bytes.blocks_of_ne_nil (by decide) some, inspectFrames, bad]

theorem inspect_of_ok (some : image ≠ []) {sum : Checksum}
    (good : Frame.verify (image.take chunkLength) = .ok sum) :
    inspect image =
      ⟨image.take chunkLength :: (inspect (image.drop chunkLength)).sound,
        (inspect (image.drop chunkLength)).damage⟩ := by
  rw [inspect, Bytes.blocks_of_ne_nil (by decide) some, inspectFrames, good]
  rfl

/-- The sound frames come first and verify; the damage is what is wrong with the frame behind them. -/
theorem inspectFrames_spec (frames : List Bytes) :
    ∃ others, frames = (inspectFrames frames).sound ++ others ∧
      (∀ frame ∈ (inspectFrames frames).sound, ∃ sum, Frame.verify frame = .ok sum) ∧
      others.head?.map Frame.verify = (inspectFrames frames).damage.map .error := by
  induction frames with
  | nil => exact ⟨[], rfl, by simp [inspectFrames], rfl⟩
  | cons frame frames ih =>
    cases verified : Frame.verify frame with
    | error found => exact ⟨frame :: frames, by simp [inspectFrames, verified]⟩
    | ok sum =>
      obtain ⟨others, split, sound, damage⟩ := ih
      refine ⟨others, ?_, ?_, ?_⟩
      · simpa [inspectFrames, verified] using split
      · simpa [inspectFrames, verified] using sound
      · simpa [inspectFrames, verified] using damage

/-- Sound frames are the sealed payloads. -/
theorem ofPayload_payloads (image : Bytes) :
    (inspect image).payloads.map Frame.ofPayload = (inspect image).sound := by
  obtain ⟨_, _, sound, _⟩ := inspectFrames_spec (image.blocks chunkLength)
  have same : ∀ frame ∈ (inspect image).sound, Frame.ofPayload (Frame.payload frame) = frame := by
    intro frame member
    obtain ⟨sum, verified⟩ := sound frame member
    exact (Frame.of_verify verified).2.1.symm
  rw [Inspection.payloads, List.map_map]
  exact (List.map_congr_left same).trans (List.map_id _)

/-- There is no more data in the sound frames than bytes in the image. -/
theorem length_bytes_inspect_le (image : Bytes) :
    (inspect image).bytes.length ≤ image.length := by
  obtain ⟨others, split, _⟩ := inspectFrames_spec (image.blocks chunkLength)
  have whole := congrArg (fun frames => frames.flatten.length) split
  simp only [Bytes.blocks_flatten, List.flatten_append, List.length_append] at whole
  have bound := (inspect image).length_bytes_le
  rw [inspect] at bound ⊢
  omega

end Image

/-! ### Frame after frame -/

/-- What one frame brings: its checksum and payload, nothing at the end, or what is wrong with it. -/
def Frames.outcome (frame : Bytes) : Except DecodeError (Option (Checksum × Bytes)) :=
  if frame = [] then .ok none
  else
    match Frame.verify frame with
    | .error found => .error (.damage found)
    | .ok sum => .ok (some (sum, Frame.payload frame))

/-- What was gathered for a frame brings what the frame does, unless a read failed. -/
def Gathered.framed (gathered : Gathered) : Except DecodeError (Option (Checksum × Bytes)) :=
  match gathered.failure with
  | some cause => .error (.source cause)
  | none => Frames.outcome gathered.bytes

variable {ρ : Type} [Source ρ]

/-- The next frame is what was gathered for it. -/
theorem Frames.next_of_gather (frames : Frames ρ) {gathered : Gathered} {source : ρ}
    (gathering : Source.readFull frames.source chunkLength = .ok (gathered, source)) :
    ∃ scratch, frames.next = .ok (gathered.framed, ⟨source, scratch⟩) := by
  have fits := Source.length_gather_le gathering
  obtain ⟨scratch, back, filling, view⟩ := frames.scratch.fill_start gathered.bytes fits
  have whole := Scratch.slice_front view
  refine ⟨scratch, ?_⟩
  rw [next, gathering, Checked.ok_bind]
  dsimp only
  rw [filling, Checked.ok_bind, Gathered.framed]
  cases gathered.failure with
  | some cause => rfl
  | none =>
    dsimp only
    rw [outcome]
    by_cases none : gathered.bytes = []
    · simp [none, pure, Except.pure]
    · have positive : gathered.bytes.length ≠ 0 := by simpa using none
      rw [if_neg none, if_neg positive, whole, Checked.ok_bind]
      cases verified : Frame.verify gathered.bytes with
      | error found => rfl
      | ok sum =>
        obtain ⟨_, sealed, _⟩ := Frame.of_verify verified
        have long : headerLength ≤ gathered.bytes.length := by
          rw [sealed, Frame.length_ofPayload]
          exact Nat.le_add_right _ _
        have cut := Scratch.slice_of_front view long (Nat.le_refl _)
        rw [List.take_length] at cut
        dsimp only
        rw [cut]
        rfl

/-- The next frame is the first block of what the source still has. -/
theorem Frames.next_of_supplies (frames : Frames ρ) {image : Bytes}
    (supplies : Source.Supplies frames.source image) :
    ∃ after, frames.next = .ok (outcome (image.take chunkLength), after) ∧
      Source.Supplies after.source (image.drop chunkLength) := by
  obtain ⟨source, reading, after⟩ := supplies.readFull chunkLength
  obtain ⟨scratch, run⟩ := frames.next_of_gather reading
  exact ⟨⟨source, scratch⟩, run, after⟩

theorem Frames.outcome_of_error {frame : Bytes} (some : frame ≠ []) {found : Damage}
    (bad : Frame.verify frame = .error found) : outcome frame = .error (.damage found) := by
  rw [outcome, if_neg some, bad]

theorem Frames.outcome_of_ok {frame : Bytes} {sum : Checksum} (good : Frame.verify frame = .ok sum) :
    outcome frame = .ok (some (sum, Frame.payload frame)) := by
  obtain ⟨_, sealed, _⟩ := Frame.of_verify good
  rw [outcome, if_neg (sealed ▸ Frame.ofPayload_ne_nil _), good]

/-! ### Reading -/

namespace Inspection

/-- How a reader of the image comes to its end. -/
def failure (inspection : Inspection) : Option FinalError :=
  inspection.damage.map fun found => (DecodeError.damage found).toFinal

end Inspection

namespace StreamDecoder

/-- What comes out of the image that the source still has, behind the payload that waits. -/
def Behind (failure : Option FinalError) (decoder : StreamDecoder ρ) (behind : Bytes) : Prop :=
  decoder.sticky = none ∧ ∃ image, Source.Supplies decoder.frames.source image ∧
    behind = (Image.inspect image).bytes ∧ failure = (Image.inspect image).failure ∧
    (decoder.finished = true → image = [])

theorem Behind.load {failure : Option FinalError} {decoder : StreamDecoder ρ} {behind : Bytes}
    (inv : Behind failure decoder behind) (waiting : decoder.pending = []) (room : Nat) :
    (behind = [] ∧ ∃ next, decoder.read room = .ok (Source.ending failure, next)) ∨
    (∃ loaded rest, decoder.read room = read loaded room ∧ loaded.pending ≠ [] ∧
      behind = loaded.pending ++ rest ∧ Behind failure loaded rest) := by
  obtain ⟨healthy, image, supplies, rfl, rfl, last⟩ := inv
  by_cases finished : decoder.finished
  · rw [last finished, Image.inspect_nil]
    refine .inl ⟨rfl, decoder, ?_⟩
    simp [read, waiting, healthy, finished, Inspection.failure, Source.ending, pure, Except.pure]
  obtain ⟨frames, fetching, after⟩ := decoder.frames.next_of_supplies supplies
  by_cases none : image = []
  · rw [none, Image.inspect_nil]
    rw [none, List.take_nil, Frames.outcome, if_pos rfl] at fetching
    refine .inl ⟨rfl, (hand ⟨frames, [], true, .none⟩ room).2, ?_⟩
    simp [read, fetch, waiting, healthy, finished, fetching, hand, Inspection.failure, Source.ending,
      pure, Except.pure]
  have first : image.take chunkLength ≠ [] := by simpa [chunkLength] using none
  cases verified : Frame.verify (image.take chunkLength) with
  | error found =>
    rw [Frames.outcome_of_error first verified] at fetching
    rw [Image.inspect_of_error none verified]
    refine .inl ⟨rfl, { decoder with frames, sticky := some (.damage found) }, ?_⟩
    simp [read, fetch, waiting, healthy, finished, fetching, pure, Except.pure, Sticky.ofError]
    rfl
  | ok sum =>
    rw [Frames.outcome_of_ok verified] at fetching
    rw [Image.inspect_of_ok none verified]
    obtain ⟨some, _, _⟩ := Frame.of_verify verified
    refine .inr ⟨{ decoder with frames, pending := Frame.payload (image.take chunkLength) }, _, ?_,
      some, ?_, healthy, image.drop chunkLength, after, rfl, rfl,
      fun finished' => absurd finished' finished⟩
    · simp [read, fetch, waiting, healthy, finished, fetching, some, pure, Except.pure]
    · simp [Inspection.bytes, Inspection.payloads]

/-- A stream decoder yields the data in the sound frames, and then ends or reports the damage. -/
theorem yields {source : ρ} {image : Bytes} (scratch : Scratch)
    (supplies : Source.Supplies source image) :
    Source.Yields (create source scratch) (Image.inspect image).bytes
      (Image.inspect image).failure := by
  have start : Behind (Image.inspect image).failure (create source scratch)
      (Image.inspect image).bytes :=
    ⟨rfl, image, supplies, rfl, rfl, fun finished => (by cases finished)⟩
  refine Source.Yields.of_pending pending (Behind _) ?_ ?_ start
  · intro decoder behind room inv waiting
    refine ⟨(decoder.hand room).2, ?_, rfl, inv⟩
    show decoder.read room = _
    simp [read, waiting, hand, pure, Except.pure]
  · intro decoder behind room inv waiting
    exact inv.load waiting room

end StreamDecoder

/-! ### Chunk after chunk -/

/-- The chunks of payloads in a row. -/
def Chunk.row (offset : Nat) : List Bytes → List Chunk
  | [] => []
  | payload :: payloads => .ofData payload offset :: row (offset + payload.length) payloads

namespace Chunk

@[simp] theorem map_data_row (offset : Nat) (payloads : List Bytes) :
    (row offset payloads).map data = payloads := by
  induction payloads generalizing offset with
  | nil => rfl
  | cons payload payloads ih => simp [row, ofData, ih]

@[simp] theorem map_encoded_row (offset : Nat) (payloads : List Bytes) :
    (row offset payloads).map encoded = payloads.map Frame.ofPayload := by
  induction payloads generalizing offset with
  | nil => rfl
  | cons payload payloads ih => simp [row, ofData, encoded, Frame.ofPayload, ih]

theorem checksum_of_mem_row {offset : Nat} {payloads : List Bytes} {chunk : Chunk}
    (member : chunk ∈ row offset payloads) : chunk.checksum = .of chunk.data := by
  induction payloads generalizing offset with
  | nil => cases member
  | cons payload payloads ih =>
    rcases List.mem_cons.mp member with rfl | member
    · rfl
    · exact ih member

theorem offset_head_row {offset : Nat} {payloads : List Bytes} {chunk : Chunk}
    (first : (row offset payloads).head? = some chunk) : chunk.offset = offset := by
  cases payloads with
  | nil => cases first
  | cons payload payloads =>
    cases first
    rfl

/-- Each chunk of a row starts where the one before it stops. -/
theorem stop_of_row {offset : Nat} {payloads : List Bytes}
    (fits : offset + payloads.flatten.length < offsetLimit) {index : Nat} {chunk next : Chunk}
    (this : (row offset payloads)[index]? = some chunk)
    (following : (row offset payloads)[index + 1]? = some next) : chunk.stop = .ok next.offset := by
  induction payloads generalizing offset index with
  | nil => cases this
  | cons payload payloads ih =>
    rw [List.flatten_cons, List.length_append] at fits
    cases index with
    | zero =>
      cases this
      have start := offset_head_row (List.head?_eq_getElem?.trans following)
      rw [start]
      exact Checked.add_eq_ok (by simp [length, ofData]; omega)
    | succ index => exact ih (by omega) this following

end Chunk

namespace ChunkStream

/-- Asks for one chunk after the other, as often as told. -/
def nexts (stream : ChunkStream ρ) :
    Nat → Checked (List (Option (Except StreamError Chunk)) × ChunkStream ρ)
  | 0 => return ([], stream)
  | count + 1 => do
    let (reply, stream) ← stream.next
    let (replies, stream) ← stream.nexts count
    return (reply :: replies, stream)

/-- What a chunk stream gives of an image: a chunk for each sound frame, then the damage. -/
def answers (offset : Nat) (inspection : Inspection) : List (Except StreamError Chunk) :=
  (Chunk.row offset inspection.payloads).map .ok ++
    inspection.damage.toList.map fun found => .error (.fault (.damage found))

theorem nexts_of_finished {stream : ChunkStream ρ} (finished : stream.finished = true)
    (count : Nat) : stream.nexts count = .ok (.replicate count none, stream) := by
  induction count with
  | zero => rfl
  | succ count ih =>
    have step : stream.next = .ok (none, stream) := by
      rw [next, if_pos finished]
      rfl
    rw [nexts, step, Checked.ok_bind]
    simp [ih, List.replicate_succ, pure, Except.pure]

/-- A call gives the first answer. Behind a chunk the stream goes on with the rest of the image, and
otherwise it is finished and there are no more answers. -/
theorem next_of_supplies {stream : ChunkStream ρ} (unfinished : stream.finished = false)
    {image : Bytes} (supplies : Source.Supplies stream.frames.source image)
    (fits : stream.offset + image.length < offsetLimit) :
    ∃ after, stream.next = .ok ((answers stream.offset (Image.inspect image))[0]?, after) ∧
      ((after.finished = true ∧ (answers stream.offset (Image.inspect image)).tail = []) ∨
        (after.finished = false ∧ Source.Supplies after.frames.source (image.drop chunkLength) ∧
          after.offset + (image.drop chunkLength).length < offsetLimit ∧
          (answers stream.offset (Image.inspect image)).tail =
            answers after.offset (Image.inspect (image.drop chunkLength)))) := by
  obtain ⟨frames, fetching, after⟩ := stream.frames.next_of_supplies supplies
  by_cases none : image = []
  · rw [none, Image.inspect_nil]
    rw [none, List.take_nil, Frames.outcome, if_pos rfl] at fetching
    refine ⟨{ stream with frames, finished := true }, ?_, .inl ⟨rfl, rfl⟩⟩
    simp [next, unfinished, fetching, answers, Inspection.payloads, Chunk.row, pure, Except.pure]
  have first : image.take chunkLength ≠ [] := by simpa [chunkLength] using none
  cases verified : Frame.verify (image.take chunkLength) with
  | error found =>
    rw [Frames.outcome_of_error first verified] at fetching
    rw [Image.inspect_of_error none verified]
    refine ⟨{ stream with frames, finished := true }, ?_, .inl ⟨rfl, rfl⟩⟩
    simp [next, unfinished, fetching, answers, Inspection.payloads, Chunk.row, pure, Except.pure,
      DecodeError.toStreamError]
  | ok sum =>
    rw [Frames.outcome_of_ok verified] at fetching
    rw [Image.inspect_of_ok none verified]
    obtain ⟨_, sealed, rfl⟩ := Frame.of_verify verified
    have length := congrArg List.length sealed
    rw [List.length_take, Frame.length_ofPayload] at length
    generalize opened : Frame.payload (image.take chunkLength) = payload at *
    have stop : Chunk.stop ⟨payload, stream.offset, .of payload⟩ =
        .ok (stream.offset + payload.length) :=
      Checked.add_eq_ok (show stream.offset + payload.length < offsetLimit by omega)
    refine ⟨{ stream with frames, offset := stream.offset + payload.length }, ?_,
      .inr ⟨unfinished, after, ?_, ?_⟩⟩
    · simp [next, unfinished, fetching, stop, answers, Inspection.payloads, opened, Chunk.row,
        Chunk.ofData, pure, Except.pure]
    · rw [List.length_drop]
      dsimp only
      omega
    · simp [answers, Inspection.payloads, opened, Chunk.row]

/-- One call more asks for the first answer and then for the others. -/
theorem range_succ_answers {α : Type} (answers : List α) (count : Nat) :
    (List.range (count + 1)).map (answers[·]?) =
      answers[0]? :: (List.range count).map (answers.tail[·]?) := by
  simp [List.range_succ_eq_map, Function.comp_def]

/-- However often it is asked, a chunk stream gives the answers in order, and nothing behind them. -/
theorem nexts_of_supplies {stream : ChunkStream ρ} (unfinished : stream.finished = false)
    {image : Bytes} (supplies : Source.Supplies stream.frames.source image)
    (fits : stream.offset + image.length < offsetLimit) (count : Nat) :
    ∃ last, stream.nexts count =
      .ok ((List.range count).map ((answers stream.offset (Image.inspect image))[·]?), last) := by
  induction count generalizing stream image with
  | zero => exact ⟨stream, rfl⟩
  | succ count ih =>
    obtain ⟨middle, step, more⟩ := next_of_supplies unfinished supplies fits
    rw [range_succ_answers, nexts, step, Checked.ok_bind]
    rcases more with ⟨finished, tail⟩ | ⟨going, after, less, tail⟩
    · refine ⟨middle, ?_⟩
      simp [nexts_of_finished finished, tail, List.map_const', pure, Except.pure]
    · obtain ⟨last, run⟩ := ih going after less
      refine ⟨last, ?_⟩
      rw [tail]
      dsimp only
      rw [run]
      rfl

end ChunkStream

end SealedStream
