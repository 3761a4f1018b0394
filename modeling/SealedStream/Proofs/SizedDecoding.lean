import SealedStream.Proofs.Canonicity
import SealedStream.Proofs.Contracts
import SealedStream.Reader.SizedDecoder

/-!
# What a decoder of known size yields

`Image.unpack` says, without buffers and reads, what comes out of an image of declared size: the
payloads up to the first bad frame, and what is wrong with that frame. `SizedDecoder.load_of_gather`
takes the buffer out of one step of the decoder, so that a decoder yields what fetching frame after
frame from its source brings (`SizedDecoder.Fetches`). From a source of an image that is what
`unpack` says, however the source splits the image (`SizedDecoder.yields`).
-/
namespace SealedStream

open Layout

/-- The bytes that come out of an image, and why no more do. -/
structure Unpacked where
  bytes : Bytes
  failure : Option DecodeError

namespace Image

/-- The first payload of an image that should hold `size` bytes, or what is wrong with its frame. -/
def openFirst (size : Nat) (image : Bytes) : Except DecodeError Bytes :=
  let length := headerLength + min size payloadLength
  if image.length < length then .error (.source .unexpectedEof)
  else (openFrame (image.take length)).mapError .damage

/-- A payload and what comes out behind it. -/
def followedBy (first : Except DecodeError Bytes) (rest : Unpacked) : Unpacked :=
  match first with
  | .error error => ⟨[], some error⟩
  | .ok payload => ⟨payload ++ rest.bytes, rest.failure⟩

/-- The payloads of an image that should hold `size` bytes, up to its first bad frame, and what is
wrong with that frame. -/
def unpack (size : Nat) (image : Bytes) : Unpacked :=
  if size = 0 then ⟨[], none⟩
  else
    followedBy (openFirst size image) (unpack (size - payloadLength) (image.drop chunkLength))
termination_by size
decreasing_by
  simp only [payloadLength]
  omega

@[simp] theorem unpack_zero (image : Bytes) : unpack 0 image = ⟨[], none⟩ := by
  rw [unpack, if_pos rfl]

theorem unpack_of_error {size : Nat} {image : Bytes} {error : DecodeError} (positive : size ≠ 0)
    (bad : openFirst size image = .error error) : unpack size image = ⟨[], some error⟩ := by
  rw [unpack, if_neg positive, bad, followedBy]

/-- A payload that opens has the size that the first chunk of the image should hold. -/
theorem length_of_openFirst {size : Nat} {image payload : Bytes}
    (opened : openFirst size image = .ok payload) :
    payload ≠ [] ∧ payload.length = min size payloadLength ∧
      image.take (headerLength + min size payloadLength) = Frame.ofPayload payload := by
  unfold openFirst at opened
  dsimp only at opened
  split at opened
  next => cases opened
  next long =>
    cases first : openFrame (image.take (headerLength + min size payloadLength)) with
    | error found => rw [first] at opened; cases opened
    | ok bytes =>
      rw [first] at opened
      cases opened
      obtain ⟨nonempty, frame⟩ := openFrame_eq_ok_iff.mp first
      have length := congrArg List.length frame
      rw [List.length_take, Frame.length_ofPayload] at length
      exact ⟨nonempty, by omega, frame⟩

/-- A payload that opens comes out in front of what comes out of the chunks behind. -/
theorem unpack_of_ok {size : Nat} {image payload : Bytes} (positive : size ≠ 0)
    (good : openFirst size image = .ok payload) :
    unpack size image =
      ⟨payload ++ (unpack (size - payload.length) (image.drop chunkLength)).bytes,
        (unpack (size - payload.length) (image.drop chunkLength)).failure⟩ := by
  have exact := (length_of_openFirst good).2.1
  have left : size - payload.length = size - payloadLength := by omega
  rw [unpack, if_neg positive, good, followedBy, left]

theorem openFirst_ofPayload {payload : Bytes} (nonempty : payload ≠ []) {size : Nat}
    (exact : payload.length = min size payloadLength) (rest : Bytes) :
    openFirst size (Frame.ofPayload payload ++ rest) = .ok payload := by
  have length : headerLength + min size payloadLength = (Frame.ofPayload payload).length := by
    rw [Frame.length_ofPayload, exact]
  unfold openFirst
  rw [length, if_neg (by rw [List.length_append]; omega), List.take_left,
    openFrame_eq_ok_iff.mpr ⟨nonempty, rfl⟩]
  rfl

/-- Whole chunks in front of an image come out in front of what comes out of it. -/
theorem unpack_append {front : Bytes} (aligned : payloadLength ∣ front.length) (size : Nat)
    (image : Bytes) :
    unpack (front.length + size) (encode front ++ image) =
      ⟨front ++ (unpack size image).bytes, (unpack size image).failure⟩ := by
  induction front using chunk_induction with
  | empty => simp
  | chunk payload middle nonempty small full ih =>
    obtain ⟨exact, tail⟩ := aligned_block nonempty small full aligned
    have frame : (Frame.ofPayload payload).length = chunkLength := by
      rw [Frame.length_ofPayload, exact, headerLength_add_payloadLength]
    have size_eq : (payload ++ middle).length + size = payloadLength + (middle.length + size) := by
      rw [List.length_append, exact, Nat.add_assoc]
    have first : openFirst (payloadLength + (middle.length + size))
        (Frame.ofPayload payload ++ (encode middle ++ image)) = .ok payload :=
      openFirst_ofPayload nonempty (by rw [exact, Nat.min_eq_right (Nat.le_add_right _ _)]) _
    rw [encode_append_block nonempty small full, List.append_assoc, size_eq,
      unpack_of_ok (by simp only [payloadLength]; omega) first, exact, Nat.add_sub_cancel_left, ← frame,
      List.drop_left, ih tail, List.append_assoc]

/-- The last payload comes out of its frame, whatever lies behind. -/
theorem unpack_block {payload : Bytes} (nonempty : payload ≠ [])
    (small : payload.length ≤ payloadLength) (rest : Bytes) :
    unpack payload.length (Frame.ofPayload payload ++ rest) = ⟨payload, none⟩ := by
  have first := openFirst_ofPayload nonempty (Nat.min_eq_left small).symm rest
  rw [unpack_of_ok (by simpa using nonempty) first, Nat.sub_self, unpack_zero,
    List.append_nil]

/-- All data comes out of its image. -/
theorem unpack_encode (data : Bytes) : unpack data.length (encode data) = ⟨data, none⟩ := by
  induction data using chunk_induction with
  | empty => simp
  | chunk payload rest nonempty small full ih =>
    rcases full with full | rfl
    · have aligned : payloadLength ∣ payload.length := ⟨1, by rw [full, Nat.mul_one]⟩
      have whole := unpack_append aligned rest.length (encode rest)
      rw [ih, encode_block nonempty small] at whole
      rw [encode_append_block nonempty small (.inl full), List.length_append]
      exact whole
    · simpa [encode_block nonempty small] using unpack_block nonempty small []

theorem encode_injective {first second : Bytes} (length : first.length = second.length)
    (same : encode first = encode second) : first = second := by
  have unpacked := unpack_encode first
  rw [same, length, unpack_encode] at unpacked
  exact (congrArg Unpacked.bytes unpacked).symm

/-- A header in front of some bytes opens to them exactly if it is theirs. -/
theorem openFrame_header_append (sum : Checksum) {bytes : Bytes} (nonempty : bytes ≠ []) :
    openFrame (sum.header ++ bytes) =
      if sum = Checksum.of bytes then .ok bytes
      else .error (.checksumMismatch sum.value (Checksum.of bytes).value) := by
  have long : ¬ (sum.header ++ bytes).length ≤ headerLength := by
    have := List.length_pos_iff.mpr nonempty
    rw [List.length_append, Checksum.length_header]
    omega
  rw [openFrame, Frame.verify, Checksum.ofHeader?_header]
  dsimp only
  rw [if_neg long, Frame.payload_header_append]
  split <;> rfl

/-- Any four bytes are the header of some checksum. -/
theorem exists_header {header : Bytes} (length : header.length = headerLength) :
    ∃ sum : Checksum, header = sum.header := by
  match header, length with
  | [a, b, c, d], _ => exact ⟨⟨Bytes.toWord a b c d⟩, (Bytes.ofWord_toWord a b c d).symm⟩

/-- Four bytes in front of a payload are its header, or do not match it. -/
theorem openFrame_of_header {header payload : Bytes} (length : header.length = headerLength)
    (nonempty : payload ≠ []) :
    header = (Checksum.of payload).header ∨ ∃ stored actual,
      openFrame (header ++ payload) = .error (.checksumMismatch stored actual) := by
  obtain ⟨sum, rfl⟩ := exists_header length
  rw [openFrame_header_append sum nonempty]
  by_cases same : sum = Checksum.of payload
  · exact .inl (by rw [same])
  · exact .inr ⟨_, _, if_neg same⟩

/-- A frame that does not verify stops the unpacking, with the chunks before it already out. -/
theorem unpack_of_bad_frame {chunks frame payload rest : Bytes} {found : Damage}
    (aligned : payloadLength ∣ chunks.length) (length : frame.length = headerLength + payload.length)
    (nonempty : payload ≠ []) (small : payload.length ≤ payloadLength)
    (full : payload.length = payloadLength ∨ rest = []) (bad : openFrame frame = .error found) :
    unpack (chunks ++ payload ++ rest).length (encode chunks ++ frame ++ encode rest) =
      ⟨chunks, some (.damage found)⟩ := by
  have size : (chunks ++ payload ++ rest).length =
      chunks.length + (payload.length + rest.length) := by
    rw [List.length_append, List.length_append, Nat.add_assoc]
  have positive : payload.length + rest.length ≠ 0 := by
    have := List.length_pos_iff.mpr nonempty
    omega
  -- The unpacking asks for just this payload, as it is full or the last one.
  have first : min (payload.length + rest.length) payloadLength = payload.length := by
    rcases full with full | rfl
    · rw [full]
      exact Nat.min_eq_right (Nat.le_add_right _ _)
    · exact Nat.min_eq_left small
  have stops : openFirst (payload.length + rest.length) (frame ++ encode rest) =
      .error (.damage found) := by
    have long : ¬ (frame ++ encode rest).length < frame.length :=
      Nat.not_lt.mpr (List.prefix_append _ _).length_le
    rw [openFirst, first, ← length, if_neg long, List.take_left, bad]
    rfl
  rw [size, List.append_assoc, unpack_append aligned, unpack_of_error positive stops,
    List.append_nil]

/-- An image in which the header of one chunk was replaced is the image of its data, or only the
chunks before that one come out of it, and then a mismatch. -/
theorem unpack_of_header {chunks header payload rest : Bytes}
    (aligned : payloadLength ∣ chunks.length) (length : header.length = headerLength)
    (nonempty : payload ≠ []) (small : payload.length ≤ payloadLength)
    (full : payload.length = payloadLength ∨ rest = []) :
    unpack (chunks ++ payload ++ rest).length
        (encode chunks ++ header ++ payload ++ encode rest) = ⟨chunks ++ payload ++ rest, none⟩ ∨
      ∃ stored actual, unpack (chunks ++ payload ++ rest).length
        (encode chunks ++ header ++ payload ++ encode rest) =
          ⟨chunks, some (.damage (.checksumMismatch stored actual))⟩ := by
  rcases openFrame_of_header length nonempty with rfl | ⟨stored, actual, mismatch⟩
  · -- The right header makes it the image of the data.
    left
    have whole : encode (chunks ++ payload ++ rest) =
        encode chunks ++ (Checksum.of payload).header ++ payload ++ encode rest := by
      rw [List.append_assoc chunks, encode_append aligned, encode_append_block nonempty small full,
        Frame.ofPayload]
      simp only [List.append_assoc]
    rw [← whole, unpack_encode]
  · right
    have frame : (header ++ payload).length = headerLength + payload.length := by
      rw [List.length_append, length]
    rw [List.append_assoc (encode chunks)]
    exact ⟨stored, actual, unpack_of_bad_frame aligned frame nonempty small full mismatch⟩

end Image

/-! ### The decoder -/

namespace DecodeError

/-- The error as the reader of a decoder gets it. -/
def toFinal (error : DecodeError) : FinalError := ⟨error.toIo, error.kind_ne⟩

end DecodeError

/-- The payload of what was gathered for one frame. -/
def Gathered.opened (gathered : Gathered) (need : Nat) : Except DecodeError Bytes :=
  match gathered.outcome need .unexpectedEof with
  | .error cause => .error (.source cause)
  | .ok () => (Image.openFrame gathered.bytes).mapError .damage

theorem Gathered.le_of_outcome {gathered : Gathered} {need : Nat} {shortage : FinalError}
    (enough : gathered.outcome need shortage = .ok ()) : need ≤ gathered.bytes.length := by
  unfold outcome at enough
  split at enough
  next => cases enough
  next =>
    split at enough
    next => cases enough
    next => omega

/-- What opens is the frame of a payload, and at least as much as was needed. -/
theorem Gathered.of_opened {gathered : Gathered} {need : Nat} {payload : Bytes}
    (opened : gathered.opened need = .ok payload) :
    need ≤ gathered.bytes.length ∧ payload ≠ [] ∧ gathered.bytes = Frame.ofPayload payload := by
  unfold Gathered.opened at opened
  split at opened
  next => cases opened
  next _ enough =>
    refine ⟨Gathered.le_of_outcome enough, ?_⟩
    cases frame : Image.openFrame gathered.bytes with
    | error found => rw [frame] at opened; cases opened
    | ok bytes =>
      rw [frame] at opened
      cases opened
      exact Image.openFrame_eq_ok_iff.mp frame

/-- A header with enough bytes behind it opens to them exactly if it is theirs. -/
theorem Gathered.opened_header_append (sum : Checksum) {bytes : Bytes} (nonempty : bytes ≠ [])
    {need : Nat} (enough : need ≤ headerLength + bytes.length) :
    Gathered.opened ⟨sum.header ++ bytes, none⟩ need =
      if sum = Checksum.of bytes then .ok bytes
      else .error (.damage (.checksumMismatch sum.value (Checksum.of bytes).value)) := by
  have long : ¬ (sum.header ++ bytes).length < need := by
    rw [List.length_append, Checksum.length_header]
    omega
  rw [Gathered.opened, Gathered.outcome]
  dsimp only
  rw [if_neg long]
  dsimp only
  rw [Image.openFrame_header_append sum nonempty]
  split <;> rfl

namespace SizedDecoder

variable {ρ : Type}

/-- The decoder once its source has been read for a frame that opened, or did not. -/
def advance (decoder : SizedDecoder ρ) (source : ρ) (scratch : Scratch) :
    Except DecodeError Bytes → Except DecodeError Nat × SizedDecoder ρ
  | .error error => (.error error, { decoder with source, scratch })
  | .ok payload =>
    (.ok (min payload.length decoder.remaining),
      { decoder with
        source
        scratch
        pending := payload.take decoder.remaining
        remaining := decoder.remaining - payload.length })

variable [Source ρ]

/-- A load is a gathering and an opening. What was gathered lies at the start of the buffer. -/
theorem load_of_gather (decoder : SizedDecoder ρ) {need : Nat} {gathered : Gathered} {source : ρ}
    (limited : min (decoder.remaining + headerLength) chunkLength = need)
    (gathering : Source.gather decoder.source need chunkLength = .ok (gathered, source)) :
    ∃ scratch back, scratch.bytes = gathered.bytes ++ back ∧
      decoder.load = .ok (decoder.advance source scratch (gathered.opened need)) := by
  have fits := Source.length_gather_le gathering
  obtain ⟨scratch, back, filling, view⟩ := decoder.scratch.fill_start gathered.bytes fits
  refine ⟨scratch, back, view, ?_⟩
  have frame := Scratch.slice_front view
  rw [load]
  dsimp only
  rw [limited, gathering, Checked.ok_bind]
  dsimp only
  rw [filling, Checked.ok_bind, Gathered.opened]
  cases gathered.outcome need .unexpectedEof with
  | error cause => rfl
  | ok _ =>
    -- The frame is verified where it lies, and its payload is cut out of the same buffer.
    dsimp only
    rw [frame, Checked.ok_bind, Image.openFrame]
    cases verified : Frame.verify gathered.bytes with
    | error found => rfl
    | ok sum =>
      obtain ⟨_, sealed, _⟩ := Frame.of_verify verified
      have length := congrArg List.length sealed
      rw [Frame.length_ofPayload] at length
      generalize opened : Frame.payload gathered.bytes = payload at length
      have handed : scratch.slice headerLength
          (headerLength + min payload.length decoder.remaining) =
            .ok (payload.take decoder.remaining) := by
        have inside : headerLength + min payload.length decoder.remaining ≤ gathered.bytes.length := by
          omega
        have cut := Scratch.slice_of_front view (Nat.le_add_right headerLength _) inside
        rw [List.drop_take, Nat.add_sub_cancel_left, ← Frame.payload, opened] at cut
        rwa [Nat.min_comm, ← List.take_eq_take_min, Nat.min_comm] at cut
      dsimp only
      rw [length, Checked.sub_eq_ok (Nat.le_add_right _ _), Checked.ok_bind,
        Nat.add_sub_cancel_left, handed, Checked.ok_bind,
        Checked.sub_eq_ok (Nat.min_le_right _ _), Checked.ok_bind]
      have left : decoder.remaining - min payload.length decoder.remaining =
          decoder.remaining - payload.length := by omega
      rw [left]
      rfl

theorem fetch_of_error {decoder : SizedDecoder ρ} {source : ρ} {scratch : Scratch}
    {error : DecodeError}
    (loading : decoder.load = .ok (decoder.advance source scratch (.error error))) :
    decoder.fetch = .ok (.error error,
      { decoder with source, scratch, sticky := some (.ofError error) }) := by
  rw [fetch, loading]
  rfl

theorem fetch_of_ok {decoder : SizedDecoder ρ} {source : ρ} {scratch : Scratch} {payload : Bytes}
    (loading : decoder.load = .ok (decoder.advance source scratch (.ok payload))) :
    decoder.fetch = .ok (.ok (min payload.length decoder.remaining),
      { decoder with
        source
        scratch
        pending := payload.take decoder.remaining
        remaining := decoder.remaining - payload.length }) := by
  rw [fetch, loading]
  rfl

/-! What a read does is decided by what waits, what is remembered and what remains. -/

section

variable {decoder next : SizedDecoder ρ}

theorem read_of_waiting (waiting : decoder.pending ≠ []) (room : Nat) :
    decoder.read room = .ok (.ok (decoder.hand room).1, (decoder.hand room).2) := by
  simp [SizedDecoder.read, waiting, pure, Except.pure]

variable (idle : decoder.pending = [])

include idle

theorem read_of_sticky {sticky : Sticky} (ended : decoder.sticky = some sticky) (room : Nat) :
    decoder.read room = .ok (.error sticky.toIo, decoder) := by
  simp [SizedDecoder.read, idle, ended, pure, Except.pure]

variable (healthy : decoder.sticky = none)

include healthy

theorem read_of_done (done : decoder.remaining = 0) (room : Nat) :
    decoder.read room = .ok (.ok [], decoder) := by
  simp [SizedDecoder.read, idle, healthy, done, pure, Except.pure]

theorem read_of_failed {error : DecodeError} (wanting : decoder.remaining ≠ 0)
    (fetching : decoder.fetch = .ok (.error error, next)) (room : Nat) :
    decoder.read room = .ok (.error error.toIo, next) := by
  simp [SizedDecoder.read, idle, healthy, wanting, fetching, pure, Except.pure]

theorem read_of_fetched {count : Nat} (wanting : decoder.remaining ≠ 0)
    (fetching : decoder.fetch = .ok (.ok count, next)) (room : Nat) :
    decoder.read room = .ok (.ok (next.hand room).1, (next.hand room).2) := by
  simp [SizedDecoder.read, idle, healthy, wanting, fetching, pure, Except.pure]

end

/-- A source that has no more than the image gives the first frame whole or comes short of it. -/
theorem opened_of_split {size : Nat} {image part rest : Bytes} (positive : size ≠ 0)
    (bounded : image.length ≤ encodedLength size) (split : image = part ++ rest)
    (fits : part.length ≤ chunkLength)
    (short : part.length < min (size + headerLength) chunkLength → rest = []) :
    Gathered.opened ⟨part, none⟩ (min (size + headerLength) chunkLength) =
        Image.openFirst size image ∧
      rest = image.drop chunkLength := by
  have need : min (size + headerLength) chunkLength = headerLength + min size payloadLength := by
    simp only [headerLength, chunkLength, payloadLength]
    omega
  have whole := congrArg List.length split
  rw [List.length_append] at whole
  rw [need] at short ⊢
  unfold Gathered.opened Gathered.outcome Image.openFirst
  dsimp only
  by_cases less : part.length < headerLength + min size payloadLength
  · -- Too little for the frame means that the source is at its end, and the image with it.
    have ended := short less
    subst ended
    rw [List.append_nil] at split
    subst split
    rw [if_pos less, if_pos less]
    exact ⟨rfl, (List.drop_of_length_le fits).symm⟩
  · have last : size < payloadLength → encodedLength size = headerLength + size := fun small =>
      encodedLength_of_le size (Nat.pos_of_ne_zero positive) (Nat.le_of_lt small)
    have exact : part.length = headerLength + min size payloadLength := by
      simp only [headerLength, chunkLength, payloadLength] at *
      omega
    rw [if_neg less, if_neg (by omega), ← exact, split, List.take_left]
    refine ⟨rfl, ?_⟩
    -- Nothing lies behind a frame that is not full, as the image is no longer than its data take.
    by_cases full : part.length = chunkLength
    · rw [← full, List.drop_left]
    · have ended : rest = [] := by
        apply List.eq_nil_of_length_eq_zero
        simp only [headerLength, chunkLength, payloadLength] at *
        omega
      rw [ended, List.append_nil, List.drop_of_length_le fits]

/-- What comes of a source that is read for one frame after the other until nothing remains of the
declared size, or a frame is no good: the bytes that the frames bring, and why no more come. -/
inductive Fetches : ρ → Nat → Bytes → Option FinalError → Prop
  | done (source : ρ) : Fetches source 0 [] none
  | stopped {source next : ρ} {remaining need : Nat} {gathered : Gathered} {error : DecodeError}
      (wanting : remaining ≠ 0) (limited : min (remaining + headerLength) chunkLength = need)
      (gathering : Source.gather source need chunkLength = .ok (gathered, next))
      (bad : gathered.opened need = .error error) :
      Fetches source remaining [] (some error.toFinal)
  | loaded {source next : ρ} {remaining need : Nat} {gathered : Gathered} {payload rest : Bytes}
      {failure : Option FinalError}
      (wanting : remaining ≠ 0) (limited : min (remaining + headerLength) chunkLength = need)
      (gathering : Source.gather source need chunkLength = .ok (gathered, next))
      (good : gathered.opened need = .ok payload)
      (behind : Fetches next (remaining - payload.length) rest failure) :
      Fetches source remaining (payload.take remaining ++ rest) failure

/-- A decoder yields what fetching from its source brings. -/
theorem Fetches.yields {source : ρ} {size : Nat} {bytes : Bytes} {failure : Option FinalError}
    (fetches : Fetches source size bytes failure) (scratch : Scratch) :
    Source.Yields (create source size scratch) bytes failure := by
  refine .of_pending SizedDecoder.pending
    (fun decoder bytes => decoder.sticky = none ∧
      Fetches decoder.source decoder.remaining bytes failure) ?_ ?_ ⟨rfl, fetches⟩
  · intro decoder behind room after waiting
    exact ⟨(decoder.hand room).2, read_of_waiting waiting room, rfl, after⟩
  · -- Nothing waits: the decoder is done, fails to load a frame, or loads one and hands out of it.
    rintro ⟨source, scratch, _, remaining, _⟩ bytes room ⟨rfl, fetches⟩ rfl
    cases fetches with
    | done => exact .inl ⟨rfl, _, read_of_done rfl rfl rfl room⟩
    | @stopped _ next _ _ gathered error wanting limited gathering bad =>
      obtain ⟨scratch, _, _, loading⟩ :=
        load_of_gather (⟨source, scratch, [], remaining, none⟩ : SizedDecoder ρ) limited gathering
      rw [bad] at loading
      exact .inl ⟨rfl, _, read_of_failed rfl rfl wanting (fetch_of_error loading) room⟩
    | @loaded _ next _ _ gathered payload rest _ wanting limited gathering good behind =>
      obtain ⟨scratch, _, _, loading⟩ :=
        load_of_gather (⟨source, scratch, [], remaining, none⟩ : SizedDecoder ρ) limited gathering
      rw [good] at loading
      obtain ⟨_, some, _⟩ := Gathered.of_opened good
      let loaded : SizedDecoder ρ :=
        ⟨next, scratch, payload.take remaining, remaining - payload.length, none⟩
      have waiting : loaded.pending ≠ [] := by simp [loaded, some, wanting]
      have fetched := read_of_fetched rfl rfl wanting (fetch_of_ok loading) room
      exact .inr ⟨loaded, rest, fetched.trans (read_of_waiting waiting room).symm, waiting, rfl, rfl,
        behind⟩

/-- A source that has no more than an image brings what unpacking the image gives. -/
theorem fetches_of_supplies {source : ρ} {size : Nat} {image : Bytes}
    (supplies : Source.Supplies source image) (bounded : image.length ≤ encodedLength size) :
    Fetches source size (Image.unpack size image).bytes
      ((Image.unpack size image).failure.map DecodeError.toFinal) := by
  -- The induction is on the declared size, of which each payload takes its part.
  induction size using Nat.strongRecOn generalizing source image with
  | _ size ih =>
    by_cases done : size = 0
    · rw [done, Image.unpack_zero]
      exact .done source
    · obtain ⟨part, rest, next, gathering, split, short, after⟩ :=
        supplies.gather (min (size + headerLength) chunkLength) chunkLength (Nat.min_le_right _ _)
      obtain ⟨opened, behind⟩ := opened_of_split done bounded split
        (Source.length_gather_le gathering) short
      rw [behind] at after
      cases first : Image.openFirst size image with
      | error error =>
        rw [first] at opened
        rw [Image.unpack_of_error done first]
        exact .stopped done rfl gathering opened
      | ok payload =>
        rw [first] at opened
        obtain ⟨some, exact, _⟩ := Image.length_of_openFirst first
        have positive := List.length_pos_iff.mpr some
        have left : size - payload.length = size - payloadLength := by omega
        have shorter : (image.drop chunkLength).length ≤ encodedLength (size - payload.length) := by
          rw [left, List.length_drop]
          exact Nat.sub_le_iff_le_add'.mpr (Nat.le_trans bounded (encodedLength_le_behind size))
        have loaded := Fetches.loaded done rfl gathering opened (ih _ (by omega) after shorter)
        rw [Image.unpack_of_ok done first]
        rwa [List.take_of_length_le (by omega)] at loaded

/-- A decoder of an image yields what unpacking the image gives, however its source splits it. -/
theorem yields {source : ρ} {size : Nat} {image : Bytes} (scratch : Scratch)
    (supplies : Source.Supplies source image) (bounded : image.length ≤ encodedLength size) :
    Source.Yields (create source size scratch) (Image.unpack size image).bytes
      ((Image.unpack size image).failure.map DecodeError.toFinal) :=
  (fetches_of_supplies supplies bounded).yields scratch

end SizedDecoder

end SealedStream
