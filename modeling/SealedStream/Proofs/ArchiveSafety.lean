import Mathlib.Data.List.Forall2
import SealedStream.Proofs.AppendLog
import SealedStream.Proofs.ChunkStarts
import SealedStream.Proofs.PieceCopying
import SealedStream.Proofs.Returning

/-!
# Archives never trap

A mounted archive has been checked once: its encoded stream ends at an offset. From that one check
it follows that no call ever leaves the offsets, whatever the devices do: every addition stays below
the limit, no subtraction goes below zero, no slice is out of bounds, and no bit of a chunk's start is
lost. One lemma for each operation says that it ends, `Archive.perform_returns` that every call comes
back to an archive that is as good as checked, and `Archive.calls_never_trap` that all calls in a row
do, also when a start that has lost bits stops them.
-/
namespace SealedStream

open Layout

/-- An error that refuses a placement. -/
def StreamError.Refusal (error : StreamError) : Prop :=
  ∃ reason, error = .fault (.invalidConfig reason)

theorem StreamError.not_refusal_source (cause : IoError) : ¬ (source cause).Refusal := by
  rintro ⟨_, ⟨⟩⟩

theorem StreamError.not_refusal_sink (cause : IoError) : ¬ (sink cause).Refusal := by
  rintro ⟨_, ⟨⟩⟩

theorem StreamError.not_refusal_damage (found : Damage) : ¬ (fault (.damage found)).Refusal := by
  rintro ⟨_, ⟨⟩⟩

/-! ### Copying -/

namespace RangeCopy

variable {σ κ : Type} [TotalStore σ] [TotalSink κ]

/-- A copy of a part of a chunk ends if the chunk starts within the cut-off store. -/
theorem part_ends (copy : RangeCopy (Clipped σ) κ) {base index start stop : Nat}
    (inside : base + chunkLength * index ≤ copy.store.stop)
    (fits : copy.store.stop < offsetLimit) (ordered : start ≤ stop) :
    (copy.part base index start stop).Ends (fun _ after => after.store.stop = copy.store.stop)
      fun _ => True := by
  rw [part, chunkStart_eq index (by omega)]
  apply Checked.Ends.bind (Checked.add_returns (by omega))
  rintro _ _ rfl
  apply Checked.Ends.bind (copy.store.readFullAt_returns inside fits chunkLength)
  rintro ⟨gathered, store⟩ _ ⟨short, same⟩
  apply Checked.Ends.bind (copy.scratch.fill_returns (by omega))
  intro scratch _ _
  dsimp only
  split
  · exact .failed trivial
  split
  · exact .failed trivial
  apply Checked.Ends.bind (scratch.slice_returns (Nat.zero_le _) short)
  intro frame _ _
  split
  · exact .failed trivial
  split
  · exact .failed trivial
  · apply Checked.Ends.bind (scratch.slice_returns (by omega) (by omega))
    intro bytes _ _
    apply Checked.Ends.bind (TotalSink.writeAll_returns copy.sink bytes)
    rintro ⟨reply, sink⟩ _ _
    cases reply with
    | ok _ => exact .succeeded same
    | error cause => exact .failed trivial

/-- Pieces are copied one after the other; each of them finds the store as it was cut off. -/
theorem pieces_ends (copy : RangeCopy (Clipped σ) κ) {base stop : Nat} {pieces : List Piece}
    (cut : copy.store.stop = stop) (fits : stop < offsetLimit)
    (sound : ∀ piece ∈ pieces,
      piece.start ≤ piece.stop ∧ base + chunkLength * piece.index ≤ stop) :
    (copy.pieces base pieces).Ends (fun _ _ => True) fun _ => True := by
  subst cut
  induction pieces generalizing copy with
  | nil => exact .succeeded trivial
  | cons piece pieces ih =>
    obtain ⟨⟨ordered, inside⟩, others⟩ := List.forall_mem_cons.mp sound
    apply Checked.Ends.andThen (copy.part_ends inside fits ordered)
    intro _ next same
    apply ih next
    · rw [same]
      exact fits
    · rw [same]
      exact others

/-- A copy of a range of the stream ends. -/
theorem run_ends (copy : RangeCopy (Clipped σ) κ) {base start stop size : Nat}
    (cut : copy.store.stop = base + encodedLength size)
    (fits : base + encodedLength size < offsetLimit) (inside : stop ≤ size) :
    (copy.run base start stop).Ends (fun _ _ => True) fun _ => True := by
  rw [run_eq_pieces]
  apply copy.pieces_ends cut fits
  intro piece member
  obtain ⟨ordered, front⟩ := Piece.mem_ofRange member
  have place := Nat.mul_le_mul_left chunkLength front
  have bound := chunkStart_le stop size inside
  exact ⟨ordered, by omega⟩

end RangeCopy

/-! ### Appending -/

namespace Sealing

variable {σ ρ : Type} [TotalStore σ] [TotalSource ρ]

/-- Sealing a chunk at a cursor ends. If it succeeds, the cursor is behind the chunk. -/
theorem chunk_ends (sealing : Sealing ρ (Cursor σ)) {length : Nat} (small : length ≤ payloadLength)
    (fits : sealing.sink.offset + (headerLength + length) < offsetLimit) :
    (sealing.chunk length).Ends
      (fun _ after => after.sink.offset = sealing.sink.offset + (headerLength + length))
      fun error => ¬ error.Refusal := by
  apply Checked.Ends.bind (Source.answers_of_total.gather trivial length length)
  intro (gathered, source) gathering _
  have short := Source.length_gather_le gathering
  obtain ⟨filled, front, back, filling, view, header⟩ :=
    sealing.scratch.fill_payload gathered.bytes (Nat.le_trans short small)
  dsimp only
  rw [filling, Checked.ok_bind]
  cases outcome : gathered.outcome length .unfilledBuffer with
  | error cause => exact .failed (StreamError.not_refusal_source _)
  | ok _ =>
    -- Everything has come, so the scratch buffer holds the whole payload behind the header.
    have exact : gathered.bytes.length = length :=
      Nat.le_antisymm short (Gathered.le_of_outcome outcome)
    obtain ⟨scratch, sealed⟩ := Scratch.sealFrame_of_bytes header view
    have frame : (Frame.ofPayload gathered.bytes).length = headerLength + length := by
      rw [Frame.length_ofPayload, exact]
    rw [exact] at sealed
    dsimp only
    rw [sealed, Checked.ok_bind]
    obtain ⟨reply, last, writing, place, _⟩ :=
      sealing.sink.writeAll_ends (Frame.ofPayload gathered.bytes) (by rw [frame]; exact fits)
    dsimp only
    rw [writing, Checked.ok_bind]
    cases reply with
    | ok value => exact .succeeded ((place value rfl).trans (by rw [frame]))
    | error cause => exact .failed (StreamError.not_refusal_sink _)

/-- Sealing at a cursor ends if the image of the bytes fits below the offset limit. -/
theorem run_ends (sealing : Sealing ρ (Cursor σ)) (size : Nat)
    (fits : sealing.sink.offset + encodedLength size < offsetLimit) :
    (sealing.run size).Ends (fun _ _ => True) fun error => ¬ error.Refusal := by
  -- The induction is on the size; each chunk leaves a smaller one.
  induction size using Nat.strongRecOn generalizing sealing with
  | _ size ih =>
    rw [run]
    split
    · exact .succeeded trivial
    next some =>
      have first := encodedLength_first size (Nat.pos_of_ne_zero some)
      have positive : 0 < min size payloadLength :=
        Nat.lt_min.mpr ⟨Nat.pos_of_ne_zero some, by decide⟩
      apply Checked.Ends.andThen (sealing.chunk_ends (Nat.min_le_right _ _) (by omega))
      intro _ middle place
      exact ih _ (by omega) middle (by omega)

end Sealing

namespace Appending

variable {σ ρ : Type} [TotalStore σ] [TotalSource ρ]

omit [TotalSource ρ] in
/-- Reading back the last chunk ends. -/
theorem recoverTail_ends (appending : Appending σ ρ) {base size : Nat}
    (fits : base + encodedLength size < offsetLimit) :
    (appending.recoverTail base size (offsetInChunk size)).Ends (fun _ _ => True)
      fun error => ¬ error.Refusal := by
  have split := offset_split size
  apply Checked.Ends.bind (Checked.sub_returns (by omega))
  rintro _ _ rfl
  have inside : size - offsetInChunk size ≤ size := Nat.sub_le _ _
  rw [SizedDecoder.ofStore_eq_ok _ _ inside fits, Checked.ok_bind]
  have bounds : (SizedDecoder.stored appending.store base (size - offsetInChunk size) size
      appending.scratch).source.InBounds :=
    ⟨Nat.add_le_add_left (chunkStart_le _ size inside) base, fits⟩
  apply Checked.Ends.bind (SizedDecoder.fetch_returns (Span.answers TotalStore.responds) bounds)
  intro (reply, decoder) _ _
  cases reply with
  | error error =>
    cases error with
    | source cause => exact .failed (StreamError.not_refusal_sink _)
    | damage found => exact .failed (StreamError.not_refusal_damage found)
  | ok count =>
    dsimp only
    split
    · exact .failed (StreamError.not_refusal_sink _)
    · exact .succeeded trivial

/-- Filling up the last chunk ends. -/
theorem extendTail_ends (appending : Appending σ ρ) {offset old added : Nat}
    (small : old + added ≤ payloadLength) (fits : offset + added < offsetLimit) :
    (appending.extendTail offset old added).Ends (fun _ _ => True)
      fun error => ¬ error.Refusal := by
  have whole := headerLength_add_payloadLength
  apply Checked.Ends.bind (Source.answers_of_total.gather trivial added added)
  intro (gathered, source) gathering _
  have short := Source.length_gather_le gathering
  apply Checked.Ends.bind (appending.scratch.fill_returns (by omega))
  intro scratch _ _
  dsimp only
  split
  · exact .failed (StreamError.not_refusal_source _)
  · apply Checked.Ends.bind (scratch.slice_returns (by omega) (by omega))
    intro patch _ length
    apply Checked.Ends.bind
      (WritableStore.writeAllAt_returns appending.store offset patch (by omega))
    intro (reply, store) _ _
    cases reply with
    | error cause => exact .failed (StreamError.not_refusal_sink _)
    | ok _ =>
      apply Checked.Ends.bind (scratch.slice_returns (by omega) (by omega))
      intro payload _ _
      exact .succeeded trivial

theorem addChunks_ends (appending : Appending σ ρ) {offset count : Nat}
    (fits : offset + encodedLength count < offsetLimit) :
    (appending.addChunks offset count).Ends (fun _ _ => True) fun error => ¬ error.Refusal := by
  obtain ⟨reply, sealing, run, _, fails⟩ := Sealing.run_ends
    (⟨appending.source, ⟨appending.store, offset⟩, appending.scratch⟩ : Sealing ρ (Cursor σ))
    count fits
  rw [addChunks, run]
  exact ⟨reply, _, rfl, fun _ _ => trivial, fails⟩

omit [TotalSource ρ] in
theorem writeHeader_ends (appending : Appending σ ρ) {offset : Nat} (sum : Checksum)
    (fits : offset + headerLength < offsetLimit) :
    (appending.writeHeader offset sum).Ends (fun _ _ => True) fun error => ¬ error.Refusal := by
  apply Checked.Ends.bind
    (WritableStore.writeAllAt_returns appending.store offset sum.header fits)
  intro (reply, store) _ _
  cases reply with
  | ok _ => exact .succeeded trivial
  | error cause => exact .failed (StreamError.not_refusal_sink _)

/-- An append ends if the longer stream still ends at an offset, and no error of it is that of a
refused placement. -/
theorem run_ends (appending : Appending σ ρ) {base size count : Nat}
    (fits : base + encodedLength (size + count) < offsetLimit) :
    (appending.run base size count).Ends (fun _ _ => True) fun error => ¬ error.Refusal := by
  have shorter := encodedLength_mono (Nat.le_add_right size count)
  rw [run, encodedSize_eq_ok size (by omega), Checked.ok_bind]
  apply Checked.Ends.bind (Checked.add_returns (by omega))
  rintro _ _ rfl
  dsimp only
  split
  next aligned =>
    have extent := encodedLength_extend_aligned size count aligned
    exact appending.addChunks_ends (by omega)
  next some =>
    have small := offsetInChunk_lt size
    have extent := encodedLength_extend size count some
    have last := encodedLength_last size some
    rw [chunkStart_eq _ (by omega)]
    apply Checked.Ends.bind (Checked.add_returns (by omega))
    rintro _ _ rfl
    -- The tail is read back and filled up, then come new chunks, and the header at last.
    apply Checked.Ends.andThen (appending.recoverTail_ends (by omega))
    intro _ appending _
    apply Checked.Ends.andThen (appending.extendTail_ends (by omega) (by omega))
    intro sum appending _
    apply Checked.Ends.bind (Checked.add_returns (by omega))
    rintro _ _ rfl
    apply Checked.Ends.andThen (appending.addChunks_ends (by omega))
    intro _ appending _
    exact appending.writeHeader_ends sum (by omega)

end Appending

/-! ### Growing a placement -/

namespace Placement

variable {placement : Placement} {count : Nat}

theorem grow_of_fits
    (fits : placement.base + encodedLength (placement.logicalSize + count) < offsetLimit) :
    placement.grow count = .ok ⟨placement.base, placement.logicalSize + count⟩ := by
  have total := le_encodedLength (placement.logicalSize + count)
  have valid : validate ⟨placement.base, placement.logicalSize + count⟩ = .ok () :=
    validate_eq_ok_iff.mpr (by rw [Nat.add_comm]; exact fits)
  rw [grow, Checked.add_eq_ok (by omega)]
  dsimp only
  rw [create, valid]
  rfl

/-- A stream that would not end at an offset is refused. -/
theorem grow_of_large
    (large : offsetLimit ≤ placement.base + encodedLength (placement.logicalSize + count)) :
    ∃ error, error.Refusal ∧ placement.grow count = .error error := by
  unfold grow
  split
  next total sum =>
    obtain ⟨_, rfl⟩ := Checked.add_eq_ok_iff.mp sum
    have none := @encodedEnd?_eq_none ⟨placement.base, placement.logicalSize + count⟩ (by
      dsimp only
      omega)
    rw [create, validate, none]
    exact ⟨_, ⟨_, rfl⟩, rfl⟩
  next => exact ⟨_, ⟨_, rfl⟩, rfl⟩

end Placement

/-! ### Calls -/

namespace Archive

variable {σ : Type}

/-- A refused append touches nothing. This holds on all devices, so also on those that trap at any
call. -/
theorem append_of_large {ρ : Type} [ReadableStore σ] [WritableStore σ] [Source ρ]
    (archive : Archive σ) (source : ρ) {count : Nat}
    (large : offsetLimit ≤ archive.placement.base + encodedLength (archive.logicalSize + count)) :
    ∃ error, error.Refusal ∧ archive.append source count = .ok (.error error, archive, source) := by
  obtain ⟨error, refusal, growth⟩ := Placement.grow_of_large large
  refine ⟨error, refusal, ?_⟩
  rw [append, growth]
  rfl

/-- A call on an archive, with the devices and the buffers that it is given. -/
inductive Call : Type 1 where
  | append {ρ : Type} [TotalSource ρ] (source : ρ) (count : Nat)
  | appendBytes (bytes : Bytes)
  | read (start stop : Nat) (rooms : List Nat)
  | copy {κ : Type} [TotalSink κ] (sink : κ) (start stop : Nat)
  | verify

/-- How many bytes a call wants to append. -/
def Call.count? : Call → Option Nat
  | @append _ _ _ count => some count
  | .appendBytes bytes => some bytes.length
  | _ => none

/-- What a call comes back with. -/
inductive Answer where
  | appended (reply : Except StreamError Unit)
  | read (reply : Except StreamError (List (Except IoError Bytes)))
  | copied (reply : Except StreamError Unit)
  | verified (reply : Except StreamError Nat)

/-- An append has been refused because the longer stream would not end at an offset. -/
def Answer.Refuses : Answer → Prop
  | .appended (.error error) => error.Refusal
  | _ => False

/-- A call that has come back. -/
structure Performed (σ : Type) where
  before : Archive σ
  answer : Answer
  after : Archive σ

variable [TotalStore σ]

def perform (archive : Archive σ) : Call → Checked (Answer × Archive σ)
  | @Call.append _ _ source count => do
    let (reply, archive, _) ← archive.append source count
    return (.appended reply, archive)
  | .appendBytes bytes => do
    let (reply, archive) ← archive.appendBytes bytes
    return (.appended reply, archive)
  | .read start stop rooms => do
    match ← archive.reader start stop with
    | .error error => return (.read (.error error), archive)
    | .ok reader =>
      let (replies, reader) ← Source.readEach reader rooms
      return (.read (.ok replies), { archive with store := reader.store })
  | @Call.copy _ _ sink start stop => do
    let (reply, archive, _) ← archive.readRange sink start stop
    return (.copied reply, archive)
  | .verify => do
    let (reply, archive) ← archive.verify
    return (.verified reply, archive)

/-- Performs one call after the other, whatever comes of them. -/
def performEach (archive : Archive σ) : List Call → Checked (List (Performed σ) × Archive σ)
  | [] => return ([], archive)
  | call :: calls => do
    let (answer, next) ← archive.perform call
    let (performed, last) ← next.performEach calls
    return (⟨archive, answer, next⟩ :: performed, last)

/-- Performs a call with the operations that locate chunks in a given way. -/
def performBy (locate : Nat → Checked Nat) (archive : Archive σ) : Call → Checked (Answer × Archive σ)
  | @Call.append _ _ source count => do
    let (reply, archive, _) ← archive.appendBy locate source count
    return (.appended reply, archive)
  | .appendBytes bytes => do
    let (reply, archive) ← archive.appendBytesBy locate bytes
    return (.appended reply, archive)
  | .read start stop rooms => do
    match ← archive.readerBy locate start stop with
    | .error error => return (.read (.error error), archive)
    | .ok reader =>
      let (replies, reader) ← Source.readEach reader rooms
      return (.read (.ok replies), { archive with store := reader.store })
  | @Call.copy _ _ sink start stop => do
    let (reply, archive, _) ← archive.readRangeBy locate sink start stop
    return (.copied reply, archive)
  | .verify => do
    let (reply, archive) ← archive.verifyBy locate
    return (.verified reply, archive)

def performEachBy (locate : Nat → Checked Nat) (archive : Archive σ) :
    List Call → Checked (List (Performed σ) × Archive σ)
  | [] => return ([], archive)
  | call :: calls => do
    let (answer, next) ← archive.performBy locate call
    let (performed, last) ← next.performEachBy locate calls
    return (⟨archive, answer, next⟩ :: performed, last)

section

variable {locate : Nat → Checked Nat}

theorem performBy_eq (archive : Archive σ) (locates : Locates locate archive.logicalSize)
    (call : Call) : archive.performBy locate call = archive.perform call := by
  cases call with
  | append source count =>
    rw [performBy, perform, archive.appendBy_eq locates]
  | appendBytes bytes =>
    rw [performBy, perform, archive.appendBytesBy_eq locates]
  | read start stop rooms =>
    rw [performBy, perform, archive.readerBy_eq locates]
  | copy sink start stop =>
    rw [performBy, perform, archive.readRangeBy_eq locates]
  | verify =>
    rw [performBy, perform, archive.verifyBy_eq locates]

/-- Calls in a row are the same as long as the chunks of every archive on the way are located. -/
theorem performEachBy_eq (Inv : Archive σ → Prop)
    (locates : ∀ archive, Inv archive → Locates locate archive.logicalSize)
    (keeps : ∀ archive call answer next, Inv archive →
      archive.perform call = .ok (answer, next) → Inv next)
    (archive : Archive σ) (start : Inv archive) (calls : List Call) :
    archive.performEachBy locate calls = archive.performEach calls := by
  induction calls generalizing archive with
  | nil => rfl
  | cons call calls ih =>
    -- Up to here both rows have come to the same archive, and it has the invariant.
    rw [performEachBy, performEach, archive.performBy_eq (locates archive start)]
    cases run : archive.perform call with
    | error trap => rfl
    | ok result =>
      obtain ⟨answer, next⟩ := result
      rw [Checked.ok_bind, Checked.ok_bind]
      dsimp only
      rw [ih next (keeps archive call answer next start run)]

end

/-- What holds of a call that has come back, besides that it has. -/
structure Performed.Sound (call : Call) (performed : Performed σ) : Prop where
  valid : performed.after.placement.validate = .ok ()
  refuses : ∀ count, call.count? = some count → (performed.answer.Refuses ↔ offsetLimit ≤
    performed.before.placement.base + encodedLength (performed.before.logicalSize + count))
  untouched : performed.answer.Refuses → performed.after = performed.before

/-- An append comes back, refused exactly if the longer stream would not end at an offset. -/
theorem append_returns {ρ : Type} [TotalSource ρ] (archive : Archive σ) (source : ρ) (count : Nat)
    (valid : archive.placement.validate = .ok ()) :
    (archive.append source count).Returns fun (reply, next, _) =>
      next.placement.validate = .ok () ∧
        ((Answer.appended reply).Refuses ↔
          offsetLimit ≤ archive.placement.base + encodedLength (archive.logicalSize + count)) ∧
        ((Answer.appended reply).Refuses → next = archive) := by
  rcases Nat.lt_or_ge (archive.placement.base + encodedLength (archive.logicalSize + count))
    offsetLimit with fits | large
  · have longer : Placement.validate ⟨archive.placement.base, archive.logicalSize + count⟩ = .ok () :=
      Placement.validate_eq_ok_iff.mpr (by rw [Nat.add_comm]; exact fits)
    obtain ⟨reply, appending, run, _, fails⟩ := Appending.run_ends
      (⟨archive.store, source, archive.scratch⟩ : Appending σ ρ) fits
    rw [append, Placement.grow_of_fits fits]
    dsimp only
    rw [run, Checked.ok_bind]
    -- A success takes over the longer placement, which is valid, too.
    cases reply with
    | ok value =>
      refine .pure ⟨longer, ?_, fun refused => refused.elim⟩
      exact ⟨fun refused => refused.elim, fun large => absurd fits (Nat.not_lt_of_le large)⟩
    | error error =>
      have other := fails error rfl
      refine .pure ⟨valid, ?_, fun refused => absurd refused other⟩
      exact ⟨fun refused => absurd refused other, fun large => absurd fits (Nat.not_lt_of_le large)⟩
  · obtain ⟨error, refusal, run⟩ := archive.append_of_large source large
    exact ⟨_, run, valid, ⟨fun _ => large, fun _ => refusal⟩, fun _ => rfl⟩

omit [TotalStore σ] in
/-- Opening a reader comes back, whatever the range, and the reader stays below the offset limit. -/
theorem reader_returns (archive : Archive σ) (start stop : Nat)
    (valid : archive.placement.validate = .ok ()) :
    (archive.reader start stop).Returns fun reply =>
      ∀ reader, reply = .ok reader → reader.decoder.source.InBounds := by
  have fits := Placement.validate_eq_ok_iff.mp valid
  rw [Nat.add_comm] at fits
  unfold reader
  split
  · exact .pure fun _ same => (by cases same)
  · exact RangeReader.create_returns archive.store start stop .zero fits

/-- A copy of a range of the stream comes back, and the archive has the same placement. -/
theorem copyRange_returns {κ : Type} [TotalSink κ] (archive : Archive σ) (sink : κ)
    {start stop : Nat} (valid : archive.placement.validate = .ok ())
    (inside : stop ≤ archive.logicalSize) :
    (archive.copyRange sink start stop).Returns fun (_, next, _) =>
      next.placement = archive.placement := by
  have fits := Placement.validate_eq_ok_iff.mp valid
  have cut : archive.clipped.stop = archive.placement.base + encodedLength archive.logicalSize := by
    rw [clipped, Placement.encodedEnd?_eq_some fits]
    exact Nat.add_comm _ _
  obtain ⟨reply, copy, run, _⟩ := RangeCopy.run_ends
    (⟨archive.clipped, sink, .zero⟩ : RangeCopy (Clipped σ) κ) cut
    (by rw [Nat.add_comm]; exact fits) inside
  rw [copyRange, run]
  exact .pure rfl

/-- Every call on an archive with a valid placement comes back to such an archive. -/
theorem perform_returns (archive : Archive σ) (valid : archive.placement.validate = .ok ())
    (call : Call) :
    (archive.perform call).Returns fun (answer, next) =>
      Performed.Sound call ⟨archive, answer, next⟩ := by
  -- Only an append can be refused, or change the placement.
  have reads : ∀ {answer next}, call.count? = none → ¬ answer.Refuses →
      next.placement = archive.placement → Performed.Sound call ⟨archive, answer, next⟩ := by
    intro answer next no_append accepted same
    refine ⟨same ▸ valid, ?_, fun refused => absurd refused accepted⟩
    intro count appends
    rw [no_append] at appends
    cases appends
  cases call with
  | append source count =>
    apply Checked.Returns.bind (archive.append_returns source count valid)
    intro (reply, next, rest) _ ⟨still, refuses, untouched⟩
    refine .pure ⟨still, ?_, untouched⟩
    rintro _ ⟨⟩
    exact refuses
  | appendBytes bytes =>
    obtain ⟨⟨reply, next, rest⟩, run, still, refuses, untouched⟩ :=
      archive.append_returns (Feed.ofBytes bytes) bytes.length valid
    rw [perform, appendBytes, run]
    refine .pure ⟨still, ?_, untouched⟩
    rintro _ ⟨⟩
    exact refuses
  | read start stop rooms =>
    apply Checked.Returns.bind (archive.reader_returns start stop valid)
    intro reply _ opened
    cases reply with
    | error error => exact .pure (reads rfl id rfl)
    | ok reader =>
      have answers := RangeReader.answers (TotalStore.responds (σ := σ))
      apply Checked.Returns.bind (answers.readEach (opened reader rfl) rooms)
      intro (replies, last) _ _
      exact .pure (reads rfl id rfl)
  | copy sink start stop =>
    cases checked : archive.checkRange start stop with
    | error error =>
      rw [perform, readRange, checked]
      exact .pure (reads rfl id rfl)
    | ok _ =>
      have inside : stop ≤ archive.logicalSize := by
        unfold checkRange at checked
        split at checked
        · cases checked
        · omega
      obtain ⟨⟨reply, next, last⟩, run, same⟩ := archive.copyRange_returns sink valid inside
      rw [perform, readRange, checked]
      dsimp only
      rw [run]
      exact .pure (reads rfl id same)
  | verify =>
    obtain ⟨⟨reply, next, last⟩, run, same⟩ :=
      archive.copyRange_returns Drain.mk valid (Nat.le_refl archive.logicalSize)
    rw [perform, verify, run]
    exact .pure (reads rfl id same)

/-- All calls in a row come back. Each of them is sound, and starts with what the one before it has
left. -/
theorem performEach_returns (archive : Archive σ) (valid : archive.placement.validate = .ok ())
    (calls : List Call) :
    (archive.performEach calls).Returns fun (performed, last) =>
      List.Forall₂ Performed.Sound calls performed ∧
        performed.map Performed.before ++ [last] = archive :: performed.map Performed.after := by
  induction calls generalizing archive with
  | nil => exact .pure ⟨.nil, rfl⟩
  | cons call calls ih =>
    apply Checked.Returns.bind (archive.perform_returns valid call)
    intro (answer, next) _ sound
    apply Checked.Returns.bind (ih next sound.valid)
    intro (performed, last) _ ⟨others, chain⟩
    refine .pure ⟨.cons sound others, ?_⟩
    rw [List.map_cons, List.map_cons, List.cons_append, chain]

/-- Locating chunks by the shift as it is, the calls are those that run. -/
theorem performEachBy_wrappedStart (archive : Archive σ) (calls : List Call) :
    archive.performEachBy wrappedStart calls = archive.performEach calls :=
  performEachBy_eq (fun _ => True) (fun archive _ => wrappedStart_locates archive.logicalSize)
    (fun _ _ _ _ _ _ => trivial) archive trivial calls

/-- On an archive with a valid placement, no call in a row uses a start that has lost bits. -/
theorem performEachBy_exactStart (archive : Archive σ) (valid : archive.placement.validate = .ok ())
    (calls : List Call) :
    archive.performEachBy exactStart calls = archive.performEach calls := by
  refine performEachBy_eq (fun archive => archive.placement.validate = .ok ()) ?locates ?keeps
    archive valid calls
  case locates =>
    intro archive valid
    have fits := Placement.validate_eq_ok_iff.mp valid
    exact exactStart_locates (Nat.lt_of_le_of_lt (Nat.le_add_right _ _) fits)
  case keeps =>
    intro archive call answer next valid run
    obtain ⟨_, returned, sound⟩ := archive.perform_returns valid call
    cases run.symm.trans returned
    exact sound.valid

/-- A mounted archive never traps. Whatever its store, its base and its size, and whatever is read,
written and returned by the devices, all calls in a row come back. They come back the same if they
stop at every start of a chunk that has lost bits, and but for these stops they are the calls that
run. An append is refused exactly if the longer stream would not end at an offset; then nothing has
changed, and no device is needed for the answer. -/
theorem calls_never_trap (store : σ) (placement : Placement) (archive : Archive σ)
    (mounted : mount store placement = .ok archive) (calls : List Call) :
    (∃ performed last, archive.performEach calls = .ok (performed, last) ∧
      archive.performEachBy exactStart calls = .ok (performed, last) ∧
      List.Forall₂ Performed.Sound calls performed ∧
      performed.map Performed.before ++ [last] = archive :: performed.map Performed.after) ∧
    (∀ (other : Archive σ) (calls : List Call),
      other.performEachBy wrappedStart calls = other.performEach calls) ∧
    ∀ (τ ρ : Type) [ReadableStore τ] [WritableStore τ] [Source ρ] (other : Archive τ) (source : ρ)
      (count : Nat),
      offsetLimit ≤ other.placement.base + encodedLength (other.logicalSize + count) →
      ∃ error, error.Refusal ∧ other.append source count = .ok (.error error, other, source) := by
  obtain ⟨_, _, valid⟩ := of_mount mounted
  refine ⟨?_, fun other => other.performEachBy_wrappedStart, ?_⟩
  · obtain ⟨⟨performed, last⟩, run, sound, chain⟩ := archive.performEach_returns valid calls
    have exact_run := (archive.performEachBy_exactStart valid calls).trans run
    exact ⟨performed, last, run, exact_run, sound, chain⟩
  · intro τ ρ _ _ _ other source count large
    exact other.append_of_large source large

/-- A stream of three bytes that ends at the last offset has no room for a fourth; the other calls on
it come back as well. -/
theorem stream_at_last_offset :
    let placement : Placement := ⟨offsetLimit - 8, 3⟩
    let calls : List Call := [.append (Feed.ofBytes [1]) 1, .read 0 3 [2, 0, 9],
      .copy (Outlet.fresh [.limit 1] []) 2 3, .verify]
    ∃ archive first others last, mount Memory.empty placement = .ok archive ∧
      archive.performEach calls = .ok (first :: others, last) ∧
      archive.performEachBy exactStart calls = .ok (first :: others, last) ∧
      first.answer.Refuses ∧ first.after = archive ∧ others.length = 3 := by
  intro placement calls
  have mounted : mount Memory.empty placement = .ok ⟨.empty, placement, .zero⟩ := by
    rw [mount, Placement.validate_eq_ok_iff.mpr (by decide)]
    rfl
  obtain ⟨⟨performed, last, run, exact_run, each, chain⟩, _⟩ :=
    calls_never_trap Memory.empty placement _ mounted calls
  obtain ⟨first, others, sound, rest, rfl⟩ := List.forall₂_cons_left_iff.mp each
  obtain ⟨start, _⟩ := List.cons.inj chain
  have refused := (sound.refuses 1 rfl).mpr (by rw [start]; decide)
  have kept := sound.untouched refused
  rw [start] at kept
  exact ⟨_, first, others, last, mounted, run, exact_run, refused, kept, rest.length_eq.symm⟩

end Archive

end SealedStream
