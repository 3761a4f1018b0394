import SealedStream.Proofs.Canonicity
import SealedStream.Proofs.Phases
import SealedStream.Proofs.RangeReading
import SealedStream.Writer.Appending

/-!
# What an append stores

Each step of an append is a phase: it reads what it seals, and stores it at the offset it was given.
`Appending.run_follows` puts them together. Its plan is the whole of an append as one row of entries:
the bytes that fill up the last chunk, the chunks behind it, and last the header of the chunk that
was filled up.
-/
namespace SealedStream

open Layout

variable {σ ρ : Type} [TracedStore σ] [TracedSource ρ]

namespace Sealing

def devices (sealing : Sealing ρ (Cursor σ)) : Devices σ ρ :=
  ⟨sealing.sink.store, sealing.source⟩

/-- Sealing one chunk stores its frame. -/
theorem chunk_follows (sealing : Sealing ρ (Cursor σ)) (length : Nat)
    (small : length ≤ payloadLength)
    (fits : sealing.sink.offset + (headerLength + length) < offsetLimit) :
    Follows devices (sealing.chunk length) sealing.devices length
      (fun wanted => Entry.row sealing.sink.offset (Frame.ofPayload wanted))
      (fun _ _ after => after.sink.offset = sealing.sink.offset + (headerLength + length)) := by
  obtain ⟨gathered, source, reading, grown⟩ :=
    TracedSource.gather_answers sealing.source length length
  have bound := Source.length_gather_le reading
  obtain ⟨filled, front, back, filling, view, header⟩ :=
    sealing.scratch.fill_payload gathered.bytes (Nat.le_trans bound small)
  rw [chunk, Source.readFull, reading, Checked.ok_bind]
  dsimp only
  rw [filling, Checked.ok_bind]
  have read : Moved sealing.devices ⟨sealing.sink.store, source⟩ gathered.bytes [] :=
    Moved.ofRead sealing.sink.store grown
  -- Either the source runs out and nothing is written, or a whole frame is sealed and written.
  cases outcome : gathered.outcome length .unfilledBuffer with
  | error cause =>
    apply Follows.starved devices read bound
    intro wanted _ none
    have empty := congrArg List.length none
    rw [Entry.length_row, Frame.length_ofPayload, headerLength, List.length_nil] at empty
    omega
  | ok _ =>
    have exact : gathered.bytes.length = length :=
      Nat.le_antisymm bound (Gathered.le_of_outcome outcome)
    obtain ⟨scratch, sealed⟩ := Scratch.sealFrame_of_bytes header view
    have frame : (Frame.ofPayload gathered.bytes).length = headerLength + length := by
      rw [Frame.length_ofPayload, exact]
    obtain ⟨reply, last, writing, written, place⟩ := sealing.sink.writeAll_answers
      (Frame.ofPayload gathered.bytes) (by rw [frame]; exact fits)
    rw [exact] at sealed
    dsimp only
    rw [sealed, Checked.ok_bind]
    dsimp only
    rw [writing, Checked.ok_bind]
    cases written with
    | all stored =>
      refine Follows.succeeded devices (read.thenStored stored) exact ?_
      rw [place rfl, frame]
    | part taken short stored =>
      exact Follows.stuck devices (read.thenStored stored) exact rfl short

/-- Sealing a number of bytes stores their image. -/
theorem run_follows (sealing : Sealing ρ (Cursor σ)) (size : Nat)
    (fits : sealing.sink.offset + encodedLength size < offsetLimit) :
    Follows devices (sealing.run size) sealing.devices size
      (fun wanted => Entry.row sealing.sink.offset (Image.encode wanted))
      (fun _ _ _ => True) := by
  -- The induction is on the size; each chunk leaves a smaller one.
  induction size using Nat.strongRecOn generalizing sealing with
  | _ size ih =>
    by_cases none : size = 0
    · subst none
      have idle : sealing.run 0 = .ok (.ok (), sealing) := by
        rw [run, if_pos rfl]
        rfl
      rw [idle]
      exact Follows.idle devices (by rw [Image.encode_nil, Entry.row_nil]) trivial
    · have positive : 0 < size := Nat.pos_of_ne_zero none
      have length_positive : 0 < min size payloadLength := Nat.lt_min.mpr ⟨positive, by decide⟩
      have first := encodedLength_first size positive
      have chunk := sealing.chunk_follows (min size payloadLength) (Nat.min_le_right _ _) (by omega)
      have rest : ∀ (taken : Bytes) (value : Unit) (middle : Sealing ρ (Cursor σ)),
          taken.length = min size payloadLength →
          middle.sink.offset = sealing.sink.offset + (headerLength + min size payloadLength) →
          Follows devices (middle.run (size - min size payloadLength)) middle.devices
            (size - min size payloadLength)
            (fun wanted => Entry.row
              (sealing.sink.offset + (headerLength + min size payloadLength)) (Image.encode wanted))
            (fun _ _ _ => True) := by
        intro taken value middle _ place
        rw [← place]
        exact ih _ (by omega) middle (by omega)
      have whole : min size payloadLength + (size - min size payloadLength) = size := by omega
      have both := chunk.andThen rest
      rw [whole] at both
      rw [run, if_neg none]
      -- The plans of the two phases are the first frame of the image and the rest of it.
      refine both.replan ?_ fun _ _ _ _ => trivial
      intro wanted length
      have some : wanted ≠ [] := by
        apply List.length_pos_iff.mp
        omega
      have front : (wanted.take (min size payloadLength)).length = min size payloadLength :=
        List.length_take_of_le (by omega)
      rw [Image.encode_first some (by rw [length]), Entry.row_append, Frame.length_ofPayload, front]

end Sealing

namespace Appending

def devices (appending : Appending σ ρ) : Devices σ ρ :=
  ⟨appending.store, appending.source⟩

/-- The payload that the contents of a store show in the last chunk of a stream. -/
def tailPayload (contents : Memory) (base size : Nat) : Bytes :=
  (contents.bytes.drop (base + chunkLength * chunkIndex size + headerLength)).take
    (offsetInChunk size)

theorem chunkIndex_tail (size : Nat) : chunkIndex (size - offsetInChunk size) = chunkIndex size := by
  simp only [chunkIndex, offsetInChunk, payloadLength]
  omega

/-- What opens within the extent of the last chunk is the whole of it. -/
theorem tailPayload_of_opened {contents : Memory} {gathered : Gathered} {payload : Bytes}
    {base size old : Nat} (tail : offsetInChunk size = old)
    (front : gathered.bytes <+:
      (contents.bytes.drop (base + chunkLength * chunkIndex size)).take (headerLength + old))
    (opened : gathered.opened (headerLength + old) = .ok payload) :
    payload.length = old ∧ payload = tailPayload contents base size := by
  obtain ⟨enough, _, frame⟩ := Gathered.of_opened opened
  have bound := front.length_le
  rw [List.length_take] at bound
  -- What opens is as long as was needed, and there is no more than that.
  have length : payload.length = old := by
    rw [frame, Frame.length_ofPayload] at enough bound
    omega
  have whole := front.eq_of_length (by rw [List.length_take]; omega)
  have cut := congrArg Frame.payload (whole.symm.trans frame)
  rw [Frame.payload_ofPayload, Frame.payload, List.drop_take, List.drop_drop,
    Nat.add_sub_cancel_left] at cut
  rw [tailPayload, tail, cut]
  exact ⟨length, rfl⟩

/-- The part of a store that the last chunk of a stream takes. -/
def tailSpan {σ : Type} (store : σ) (base size : Nat) : Span σ :=
  ⟨store, base + chunkLength * chunkIndex size, base + encodedLength size⟩

/-- How an append takes what became of the frame of the last chunk: the store that holds it is a
sink. -/
def tailReply : Except DecodeError Bytes → Except StreamError Unit
  | .error (.source cause) => .error (.sink cause.toIo)
  | .error (.damage found) => .error (.fault (.damage found))
  | .ok _ => .ok ()

/-- Reading back the last chunk is one gathering from the part of the store that it takes. What was
gathered is then at the start of the scratch buffer. -/
theorem recoverTail_of_gather {σ ρ : Type} [ReadableStore σ] [WritableStore σ] [Source ρ]
    (appending : Appending σ ρ) {base size old : Nat} (tail : offsetInChunk size = old)
    (fits : base + encodedLength size < offsetLimit) {gathered : Gathered} {source : Span σ}
    (gathering : Source.gather (tailSpan appending.store base size) (headerLength + old) chunkLength =
      .ok (gathered, source)) :
    ∃ scratch back, scratch.bytes = gathered.bytes ++ back ∧
      appending.recoverTail base size old = .ok (tailReply (gathered.opened (headerLength + old)),
        ⟨source.store, appending.source, scratch⟩) := by
  have split := offset_split size
  have small := offsetInChunk_lt size
  rw [tail] at split small
  have index : chunkIndex (size - old) = chunkIndex size := by
    rw [← tail]
    exact chunkIndex_tail size
  have left : size - payloadLength * chunkIndex size = old := by omega
  -- The decoder starts at the last chunk and may read no further than its end.
  obtain ⟨decoder, made⟩ : ∃ decoder : SizedDecoder (Span σ), decoder = .create
      (tailSpan appending.store base size) old appending.scratch := ⟨_, rfl⟩
  have opening : SizedDecoder.ofStore appending.store base (size - old) size appending.scratch =
      .ok decoder := by
    rw [SizedDecoder.ofStore_eq_ok _ _ (Nat.sub_le _ _) fits, SizedDecoder.stored, index, left,
      made, tailSpan]
  have remaining : decoder.remaining = old := by rw [made]; rfl
  have source_eq : decoder.source = tailSpan appending.store base size := by rw [made]; rfl
  -- A chunk with room is short, so the decoder asks for its frame and nothing behind it.
  have limited : min (decoder.remaining + headerLength) chunkLength = headerLength + old := by
    rw [remaining, Nat.add_comm old headerLength]
    exact Nat.min_eq_left (Nat.add_le_add_left (Nat.le_of_lt small) headerLength)
  obtain ⟨scratch, back, view, loading⟩ :=
    decoder.load_of_gather limited (source_eq ▸ gathering)
  clear limited
  refine ⟨scratch, back, view, ?_⟩
  rw [recoverTail, Checked.sub_eq_ok (by omega), Checked.ok_bind, opening, Checked.ok_bind]
  cases opened : gathered.opened (headerLength + old) with
  | error error =>
    rw [opened] at loading
    rw [SizedDecoder.fetch_of_error loading, Checked.ok_bind]
    cases error <;> rfl
  | ok payload =>
    rw [opened] at loading
    obtain ⟨enough, _, frame⟩ := Gathered.of_opened opened
    rw [frame, Frame.length_ofPayload] at enough
    have counted : ¬ min payload.length decoder.remaining < old := by omega
    rw [SizedDecoder.fetch_of_ok loading, Checked.ok_bind]
    dsimp only
    rw [if_neg counted]
    rfl

theorem tailReply_eq_ok_iff {opened : Except DecodeError Bytes} :
    tailReply opened = .ok () ↔ ∃ payload, opened = .ok payload := by
  constructor
  · intro answer
    match opened, answer with
    | .ok payload, _ => exact ⟨payload, rfl⟩
  · rintro ⟨payload, rfl⟩
    rfl

/-- Reading back the last chunk touches nothing, and succeeds only if the chunk is there: its frame
is then at the start of the scratch buffer. -/
theorem recoverTail_answers (appending : Appending σ ρ) {base size old : Nat}
    (tail : offsetInChunk size = old) (some : old ≠ 0)
    (fits : base + encodedLength size < offsetLimit) :
    ∃ reply last, appending.recoverTail base size old = .ok (reply, last) ∧
      Moved appending.devices last.devices [] [] ∧
      LawfulStore.contents last.store = LawfulStore.contents appending.store ∧
      (reply = .ok () → ∃ payload back, payload.length = old ∧
        payload = tailPayload (LawfulStore.contents appending.store) base size ∧
        last.scratch.bytes = Frame.ofPayload payload ++ back) := by
  have whole := encodedLength_last size (tail ▸ some)
  rw [tail] at whole
  have sound : (tailSpan appending.store base size).Sound :=
    ⟨Nat.add_le_add_left (chunkStart_le size size (Nat.le_refl _)) _, fits⟩
  have bytes : (tailSpan appending.store base size).bytes =
      ((LawfulStore.contents appending.store).bytes.drop
        (base + chunkLength * chunkIndex size)).take (headerLength + old) := by
    have extent : base + encodedLength size - (base + chunkLength * chunkIndex size) =
        headerLength + old := by omega
    rw [tailSpan, Span.bytes, extent]
  obtain ⟨gathered, source, gathering, front, still⟩ :=
    Span.gather_answers sound (headerLength + old) chunkLength
  rw [bytes] at front
  obtain ⟨scratch, back, view, recovering⟩ :=
    appending.recoverTail_of_gather tail fits gathering
  refine ⟨_, _, recovering, ⟨(List.append_nil _).symm, ?_, still.contents⟩, still.contents, ?_⟩
  · rw [List.append_nil]
    exact still.trace
  · intro answer
    obtain ⟨payload, opened⟩ := tailReply_eq_ok_iff.mp answer
    obtain ⟨length, payload_eq⟩ := tailPayload_of_opened tail front opened
    refine ⟨payload, back, length, payload_eq, ?_⟩
    rw [← (Gathered.of_opened opened).2.2]
    exact view

/-- Writing a header stores its four bytes. -/
theorem writeHeader_follows (appending : Appending σ ρ) (offset : Nat) (sum : Checksum)
    (fits : offset + headerLength < offsetLimit) :
    Follows devices (appending.writeHeader offset sum) appending.devices 0
      (fun _ => Entry.row offset sum.header) (fun _ _ _ => True) := by
  obtain ⟨reply, last, writing, written⟩ :=
    WritableStore.writeAllAt_answers appending.store offset sum.header fits
  have read : Moved appending.devices ⟨appending.store, appending.source⟩ [] [] :=
    Moved.nothing _
  rw [writeHeader, writing, Checked.ok_bind]
  cases written with
  | all stored => exact Follows.succeeded devices (read.thenStored stored) rfl trivial
  | part taken short stored => exact Follows.stuck devices (read.thenStored stored) rfl rfl short

/-- Adding chunks is sealing at a cursor. -/
theorem addChunks_eq (appending : Appending σ ρ) (offset count : Nat) :
    appending.addChunks offset count =
      (Sealing.run (⟨appending.source, ⟨appending.store, offset⟩, appending.scratch⟩ :
        Sealing ρ (Cursor σ)) count).map fun (reply, sealing) =>
          (reply, (⟨sealing.sink.store, sealing.source, sealing.scratch⟩ : Appending σ ρ)) := by
  rw [addChunks]
  cases Sealing.run (⟨appending.source, ⟨appending.store, offset⟩, appending.scratch⟩ :
    Sealing ρ (Cursor σ)) count <;> rfl

/-- Adding chunks stores the image of the bytes taken. -/
theorem addChunks_follows (appending : Appending σ ρ) (offset count : Nat)
    (fits : offset + encodedLength count < offsetLimit) :
    Follows devices (appending.addChunks offset count) appending.devices count
      (fun wanted => Entry.row offset (Image.encode wanted)) (fun _ _ _ => True) := by
  have sealing := Sealing.run_follows
    (⟨appending.source, ⟨appending.store, offset⟩, appending.scratch⟩ : Sealing ρ (Cursor σ)) count
    fits
  rw [addChunks_eq]
  exact sealing.map
    (fun sealing => (⟨sealing.sink.store, sealing.source, sealing.scratch⟩ : Appending σ ρ))
    fun _ => rfl

/-- Filling up the last chunk stores the bytes taken behind its payload, and gives the checksum of
all of it. -/
theorem extendTail_follows (appending : Appending σ ρ) {offset old added : Nat} {payload back : Bytes}
    (length : payload.length = old) (view : appending.scratch.bytes = Frame.ofPayload payload ++ back)
    (small : old + added ≤ payloadLength) (fits : offset + added < offsetLimit) :
    Follows devices (appending.extendTail offset old added) appending.devices added
      (fun wanted => Entry.row offset wanted)
      (fun wanted sum _ => sum = Checksum.of (payload ++ wanted)) := by
  have start : (Frame.ofPayload payload).length = headerLength + old := by
    rw [Frame.length_ofPayload, length]
  obtain ⟨gathered, source, reading, grown⟩ :=
    TracedSource.gather_answers appending.source added added
  have bound := Source.length_gather_le reading
  -- The new bytes go behind the frame in the buffer, where the checksum finds them with the payload.
  obtain ⟨filled, rest, filling, bytes⟩ := Scratch.fill_behind (Frame.ofPayload payload) back
    gathered.bytes view (by rw [start, ← headerLength_add_payloadLength]; omega)
  rw [start] at filling
  have read : Moved appending.devices ⟨appending.store, source⟩ gathered.bytes [] :=
    Moved.ofRead appending.store grown
  rw [extendTail]
  dsimp only
  rw [Source.readFull, reading, Checked.ok_bind]
  dsimp only
  rw [filling, Checked.ok_bind]
  cases outcome : gathered.outcome added .unfilledBuffer with
  | error cause =>
    apply Follows.starved devices read bound
    -- A read of nothing cannot fail.
    have positive : added ≠ 0 := by
      rintro rfl
      rw [Source.gather, if_pos rfl] at reading
      cases reading
      cases outcome
    intro wanted long none
    have empty := congrArg List.length none
    rw [Entry.length_row, long] at empty
    exact positive empty
  | ok _ =>
    have exact : gathered.bytes.length = added :=
      Nat.le_antisymm bound (Gathered.le_of_outcome outcome)
    have patch := Scratch.slice_of_bytes (Frame.ofPayload payload) gathered.bytes rest bytes
    rw [start, exact] at patch
    obtain ⟨reply, last, writing, written⟩ :=
      WritableStore.writeAllAt_answers appending.store offset gathered.bytes (by omega)
    dsimp only
    rw [patch, Checked.ok_bind, writing, Checked.ok_bind]
    cases written with
    | all stored =>
      have split : filled.bytes =
          (Checksum.of payload).header ++ (payload ++ gathered.bytes) ++ rest := by
        simp only [bytes, Frame.ofPayload, List.append_assoc]
      have whole := Scratch.slice_of_bytes (Checksum.of payload).header (payload ++ gathered.bytes)
        rest split
      rw [List.length_append, length, exact, Checksum.length_header, ← Nat.add_assoc] at whole
      dsimp only
      rw [whole, Checked.ok_bind]
      exact Follows.succeeded devices (read.thenStored stored) exact rfl
    | part taken short stored =>
      exact Follows.stuck devices (read.thenStored stored) exact rfl short

/-- The bytes that the last chunk has room for go behind it, the others into chunks of their own. A
full last chunk has no room. -/
def body (size : Nat) (data : Bytes) : Bytes :=
  if offsetInChunk size = 0 then Image.encode data
  else
    data.take (payloadLength - offsetInChunk size) ++
      Image.encode (data.drop (payloadLength - offsetInChunk size))

/-- The header of a last chunk that has been filled up. -/
def tailHeader (payload : Bytes) (size : Nat) (data : Bytes) : Bytes :=
  if offsetInChunk size = 0 then []
  else (Checksum.of (payload ++ data.take (payloadLength - offsetInChunk size))).header

theorem length_tailHeader (payload : Bytes) {size : Nat} (some : offsetInChunk size ≠ 0)
    (data : Bytes) : (tailHeader payload size data).length = headerLength := by
  rw [tailHeader, if_neg some]
  exact Checksum.length_header _

/-- What an append stores when its data come from the source whole. -/
def plan (payload : Bytes) (base size : Nat) (data : Bytes) : List Entry :=
  Entry.row (base + encodedLength size) (body size data) ++
    Entry.row (base + chunkLength * chunkIndex size) (tailHeader payload size data)

/-- Cutting at the end at the latest is cutting where one would. -/
theorem cut_at_min (data : Bytes) (room : Nat) :
    data.take (min room data.length) = data.take room ∧
      data.drop (min room data.length) = data.drop room := by
  rcases Nat.le_total room data.length with inside | past
  · rw [Nat.min_eq_left inside]
    exact ⟨rfl, rfl⟩
  · rw [Nat.min_eq_right past, List.take_of_length_le past, List.drop_of_length_le past,
      List.take_length, List.drop_length]
    exact ⟨rfl, rfl⟩

/-- The writes behind a last chunk that has been read back. -/
theorem patch_follows (appending : Appending σ ρ) {base size count added : Nat}
    {payload back : Bytes} (some : offsetInChunk size ≠ 0)
    (added_eq : added = min (payloadLength - offsetInChunk size) count)
    (length : payload.length = offsetInChunk size)
    (view : appending.scratch.bytes = Frame.ofPayload payload ++ back)
    (fits : base + encodedLength (size + count) < offsetLimit) :
    Follows devices
      ((appending.extendTail (base + encodedLength size) (offsetInChunk size) added).andThen
        fun sum appending => do
          let offset ← Checked.add (base + encodedLength size) added
          (appending.addChunks offset (count - added)).andThen fun _ appending =>
            appending.writeHeader (base + chunkLength * chunkIndex size) sum)
      appending.devices count (plan payload base size) (fun _ _ _ => True) := by
  have small := offsetInChunk_lt size
  have extent := encodedLength_extend size count some
  have last := encodedLength_last size some
  rw [← added_eq] at extent
  -- First the bytes that fill up the last chunk.
  have tail := appending.extendTail_follows length view
    (by omega : offsetInChunk size + added ≤ payloadLength)
    (by omega : base + encodedLength size + added < offsetLimit)
  -- Behind the tail come the new chunks, and then the header that covers what the tail took.
  have rest : ∀ (taken : Bytes) (sum : Checksum) (middle : Appending σ ρ),
      taken.length = added → sum = Checksum.of (payload ++ taken) →
      Follows devices
        (do
          let offset ← Checked.add (base + encodedLength size) added
          (middle.addChunks offset (count - added)).andThen fun _ appending =>
            appending.writeHeader (base + chunkLength * chunkIndex size) sum)
        middle.devices (count - added)
        (fun wanted => Entry.row (base + encodedLength size + added) (Image.encode wanted) ++
          Entry.row (base + chunkLength * chunkIndex size)
            (Checksum.of (payload ++ taken)).header)
        (fun _ _ _ => True) := by
    intro taken sum middle _ value
    subst value
    rw [Checked.add_eq_ok (by omega), Checked.ok_bind]
    have chunks := middle.addChunks_follows (base + encodedLength size + added) (count - added)
      (by omega)
    have header : ∀ (more : Bytes) (value : Unit) (appending : Appending σ ρ),
        more.length = count - added → True →
        Follows devices (appending.writeHeader (base + chunkLength * chunkIndex size)
          (Checksum.of (payload ++ taken))) appending.devices 0
          (fun _ => Entry.row (base + chunkLength * chunkIndex size)
            (Checksum.of (payload ++ taken)).header) (fun _ _ _ => True) :=
      fun _ _ appending _ _ => appending.writeHeader_follows _ _ (by omega)
    refine (chunks.andThen header).replan ?_ fun _ _ _ _ => trivial
    intro wanted length
    have all : wanted.length ≤ count - added := Nat.le_of_eq length
    rw [List.take_of_length_le all]
  have whole : added + (count - added) = count := by omega
  have both := tail.andThen rest
  rw [whole] at both
  refine both.replan ?_ fun _ _ _ _ => trivial
  intro wanted length
  -- The new bytes of the tail and those of the chunks are one row.
  have cut := cut_at_min wanted (payloadLength - offsetInChunk size)
  rw [length, ← added_eq] at cut
  have front : (wanted.take added).length = added := List.length_take_of_le (by omega)
  rw [plan, body, if_neg some, tailHeader, if_neg some, ← cut.1, ← cut.2, Entry.row_append, front,
    List.append_assoc]

/-- An append follows its plan. -/
theorem run_follows (appending : Appending σ ρ) (base size count : Nat)
    (fits : base + encodedLength (size + count) < offsetLimit) :
    Follows devices (appending.run base size count) appending.devices count
      (plan (tailPayload (LawfulStore.contents appending.store) base size) base size)
      (fun _ _ _ => True) := by
  have monotone := encodedLength_mono (Nat.le_add_right size count)
  rw [run, encodedSize_eq_ok size (by omega), Checked.ok_bind, Checked.add_eq_ok (by omega),
    Checked.ok_bind]
  dsimp only
  by_cases aligned : offsetInChunk size = 0
  · have extent := encodedLength_extend_aligned size count aligned
    rw [if_pos aligned]
    refine (appending.addChunks_follows (base + encodedLength size) count (by omega)).replan ?_
      fun _ _ _ _ => trivial
    intro wanted _
    rw [plan, body, if_pos aligned, tailHeader, if_pos aligned, Entry.row_nil, List.append_nil]
  · have last := encodedLength_last size aligned
    have header : Checked.add base (chunkStart (chunkIndex size)) =
        .ok (base + chunkLength * chunkIndex size) := by
      rw [chunkStart_eq _ (by omega)]
      exact Checked.add_eq_ok (by omega)
    obtain ⟨reply, middle, recovering, still, same, recovered⟩ :=
      appending.recoverTail_answers rfl aligned (by omega : base + encodedLength size < offsetLimit)
    rw [if_neg aligned, header, Checked.ok_bind]
    refine Follows.prelude recovering still ?_ ?_
    · -- There is always a header to write, so to fail here is to follow the plan to its start only.
      intro wanted _ none
      have empty := congrArg List.length none
      rw [plan, List.length_append, Entry.length_row, Entry.length_row, length_tailHeader _ aligned,
        headerLength, List.length_nil] at empty
      omega
    · intro value answer
      subst answer
      obtain ⟨payload, back, length, tail, view⟩ := recovered rfl
      rw [← tail]
      exact middle.patch_follows aligned rfl length view fits

end Appending

end SealedStream
