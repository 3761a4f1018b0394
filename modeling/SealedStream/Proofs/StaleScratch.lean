import SealedStream.Proofs.Alike
import SealedStream.Proofs.ChunkWriting
import SealedStream.Reader.StreamDecoder
import SealedStream.Reader.StreamEncoder
import SealedStream.Store.Archive

/-!
# Stale scratch

What a scratch buffer held before an operation never shows. Each operation that works in a buffer is
compared with a second run that differs from the first in the buffer alone: step by step the two get the
same replies and leave the devices in the same states, also if they fail or trap midway. Since the
devices may be any, and may keep a record of the calls made to them (`Recorded`), the same calls are made
in the same order. `Scratch.never_shows` says so of all operations that take a buffer.
-/
namespace SealedStream

open Layout

open Checked (Alike SameReply SameOutcome)

variable {ρ κ σ : Type}

/-! ### Readers -/

theorem SizedDecoder.twins [Source ρ] : Source.Twins (@SizedDecoder.Same ρ ρ Eq) := by
  intro first second room same
  refine same.read room fun _ _ _ => ?_
  rw [← same.source]
  exact .same_reply _

/-- Decoders over the same stored stream differ in their buffers at most. -/
theorem SizedDecoder.ofStore_alike (store : σ) (base start size : Nat) (scratch scratch' : Scratch) :
    Alike (Same Eq) (ofStore store base start size scratch)
      (ofStore store base start size scratch') := by
  unfold SizedDecoder.ofStore
  refine Alike.bind_same fun encoded _ => ?_
  refine Alike.bind_same fun extent _ => ?_
  refine Alike.bind_same fun offset _ => ?_
  exact Alike.bind_same fun logical _ => .back ⟨rfl, rfl, rfl, rfl⟩

theorem Frames.next_alike [Source ρ] {first second : Frames ρ} (same : first.source = second.source) :
    Alike (SameReply fun _ first second => first.source = second.source) first.next second.next := by
  unfold Frames.next
  rw [same]
  refine Alike.bind_same fun (gathered, source) _ => ?_
  refine ((Scratch.agree_nowhere 0 first.scratch second.scratch).fill_behind gathered.bytes).bind ?_
  intro filled filled' agree
  rw [Nat.zero_add] at agree
  dsimp only
  split
  next cause _ => exact .back ⟨rfl, rfl⟩
  next =>
    split
    next => exact .back ⟨rfl, rfl⟩
    next =>
      rw [agree.slice]
      refine Alike.bind_same fun frame _ => ?_
      split
      next found _ => exact .back ⟨rfl, rfl⟩
      next sum _ =>
        rw [(agree.within (Nat.zero_le headerLength) (Nat.le_refl _)).slice]
        exact Alike.bind_same fun payload _ => .back ⟨rfl, rfl⟩

namespace StreamDecoder

/-- Decoders that differ in their buffers at most. -/
structure Same (first second : StreamDecoder ρ) : Prop where
  source : first.frames.source = second.frames.source
  pending : first.pending = second.pending
  finished : first.finished = second.finished
  sticky : first.sticky = second.sticky

theorem Same.hand {first second : StreamDecoder ρ} (same : Same first second) (room : Nat) :
    SameReply (fun _ => Same) (first.hand room) (second.hand room) :=
  ⟨congrArg (List.take room) same.pending, same.source, congrArg (List.drop room) same.pending,
    same.finished, same.sticky⟩

variable [Source ρ]

theorem Same.fetch {first second : StreamDecoder ρ} (same : Same first second) :
    Alike (SameReply fun _ => Same) first.fetch second.fetch := by
  refine (Frames.next_alike same.source).bind ?_
  rintro ⟨reply, frames⟩ ⟨_, frames'⟩ ⟨rfl, after⟩
  dsimp only
  split
  next pending => exact .back ⟨rfl, after, rfl, same.finished, same.sticky⟩
  next => exact .back ⟨rfl, after, same.pending, rfl, same.sticky⟩
  next error => exact .back ⟨rfl, after, same.pending, same.finished, rfl⟩

theorem twins : Source.Twins (@Same ρ) := by
  intro first second room same
  show Alike _ (first.read room) (second.read room)
  unfold StreamDecoder.read
  rw [← same.pending, ← same.sticky, ← same.finished]
  by_cases idle : first.pending = []
  · rw [if_neg (not_not_intro idle), if_neg (not_not_intro idle)]
    split
    next sticky _ => exact .back ⟨rfl, same⟩
    next =>
      by_cases done : first.finished = true
      · rw [if_pos done, if_pos done]
        exact .back ⟨rfl, same⟩
      · rw [if_neg done, if_neg done]
        refine same.fetch.bind ?_
        rintro ⟨reply, next⟩ ⟨_, next'⟩ ⟨rfl, fetched⟩
        cases reply with
        | error error => exact .back ⟨rfl, fetched⟩
        | ok _ =>
          obtain ⟨handed, left⟩ := fetched.hand room
          exact .back ⟨congrArg Except.ok handed, left⟩
  · rw [if_pos idle, if_pos idle]
    obtain ⟨handed, left⟩ := same.hand room
    exact .back ⟨congrArg Except.ok handed, left⟩

end StreamDecoder

namespace StreamEncoder

/-- Encoders that differ in their buffers at most. -/
structure Same (first second : StreamEncoder ρ) : Prop where
  source : first.source = second.source
  pending : first.pending = second.pending
  finished : first.finished = second.finished

theorem Same.hand {first second : StreamEncoder ρ} (same : Same first second) (room : Nat) :
    SameReply (fun _ => Same) (first.hand room) (second.hand room) :=
  ⟨congrArg (List.take room) same.pending, same.source, congrArg (List.drop room) same.pending,
    same.finished⟩

variable [Source ρ]

/-- The payload that is sealed is the one that was gathered. -/
theorem Same.fetch {first second : StreamEncoder ρ} (same : Same first second) :
    Alike (SameReply fun _ => Same) first.fetch second.fetch := by
  unfold StreamEncoder.fetch
  rw [same.source]
  refine Alike.bind_same fun (gathered, source) _ => ?_
  refine ((Scratch.agree_nowhere headerLength first.scratch second.scratch).fill_behind
    gathered.bytes).bind ?_
  intro filled filled' agree
  dsimp only
  split
  next cause _ => exact .back ⟨rfl, rfl, same.pending, same.finished⟩
  next =>
    rw [same.finished]
    split
    next => exact .back ⟨rfl, rfl, same.pending, rfl⟩
    next =>
      refine agree.sealFrame.bind ?_
      rintro ⟨frame, sealed⟩ ⟨_, sealed'⟩ ⟨rfl, _⟩
      exact .back ⟨rfl, rfl, rfl, rfl⟩

theorem twins : Source.Twins (@Same ρ) := by
  intro first second room same
  show Alike _ (first.read room) (second.read room)
  unfold StreamEncoder.read
  rw [← same.pending, ← same.finished]
  by_cases idle : first.pending = []
  · rw [if_neg (not_not_intro idle), if_neg (not_not_intro idle)]
    by_cases done : first.finished = true
    · rw [if_pos done, if_pos done]
      exact .back ⟨rfl, same⟩
    · rw [if_neg done, if_neg done]
      refine same.fetch.bind ?_
      rintro ⟨reply, next⟩ ⟨_, next'⟩ ⟨rfl, fetched⟩
      cases reply with
      | error cause => exact .back ⟨rfl, fetched⟩
      | ok _ =>
        obtain ⟨handed, left⟩ := fetched.hand room
        exact .back ⟨congrArg Except.ok handed, left⟩
  · rw [if_pos idle, if_pos idle]
    obtain ⟨handed, left⟩ := same.hand room
    exact .back ⟨congrArg Except.ok handed, left⟩

end StreamEncoder

/-! ### Writers -/

namespace Sealing

/-- Sealings that differ in their buffers at most. -/
structure Same (first second : Sealing ρ κ) : Prop where
  source : first.source = second.source
  sink : first.sink = second.sink

variable [Source ρ] [Sink κ] {first second : Sealing ρ κ}

theorem Same.chunk (same : Same first second) (length : Nat) :
    Alike (SameReply fun _ => Same) (first.chunk length) (second.chunk length) := by
  unfold Sealing.chunk
  rw [same.source, same.sink]
  refine Alike.bind_same fun (gathered, source) _ => ?_
  refine ((Scratch.agree_nowhere headerLength first.scratch second.scratch).fill_behind
    gathered.bytes).bind ?_
  intro filled filled' agree
  dsimp only
  cases outcome : gathered.outcome length .unfilledBuffer with
  | error cause => exact .back ⟨rfl, rfl, rfl⟩
  | ok _ =>
    -- The source gave the whole payload, so nothing older is in it.
    have whole : length ≤ gathered.bytes.length := Gathered.le_of_outcome outcome
    have payload := agree.within (Nat.le_refl headerLength) (Nat.add_le_add_left whole _)
    refine payload.sealFrame.bind ?_
    rintro ⟨frame, sealed⟩ ⟨_, sealed'⟩ ⟨rfl, _⟩
    exact Alike.bind_same fun (reply, sink) _ => .back ⟨rfl, rfl, rfl⟩

theorem Same.run (same : Same first second) (size : Nat) :
    Alike (SameReply fun _ => Same) (first.run size) (second.run size) := by
  -- The induction is on the size, which each chunk makes less.
  induction size using Nat.strongRecOn generalizing first second with
  | _ size ih =>
    rw [Sealing.run, Sealing.run]
    by_cases none : size = 0
    · rw [if_pos none, if_pos none]
      exact .back ⟨rfl, same⟩
    · rw [if_neg none, if_neg none]
      refine (same.chunk _).andThen ?_ fun _ _ _ after => after
      intro _ next next' after
      refine ih _ ?_ after
      simp only [payloadLength]
      omega

end Sealing

namespace ChunkWriter

/-- Writers that differ in their buffers at most, and there not in the payload that they hold, nor in
its header once a part of it has been written. -/
structure Same (first second : ChunkWriter κ) : Prop where
  sink : first.sink = second.sink
  hasher : first.hasher = second.hasher
  emitted : first.emitted = second.emitted
  held : Scratch.Agree (if first.emitted = 0 then headerLength else 0)
    (headerLength + first.buffered) first.scratch second.scratch

variable {first second : ChunkWriter κ}

theorem Same.create (sink : κ) (scratch scratch' : Scratch) :
    Same (create sink scratch) (create sink scratch') :=
  ⟨rfl, rfl, rfl, Scratch.agree_nowhere headerLength scratch scratch'⟩

theorem Same.buffered (same : Same first second) : first.buffered = second.buffered :=
  congrArg Hasher.length same.hasher

theorem Same.buffer (same : Same first second) (part : Bytes) :
    Alike Same (first.buffer part) (second.buffer part) := by
  unfold ChunkWriter.buffer
  rw [← same.buffered]
  refine (same.held.fill_behind part).bind fun filled filled' agree => ?_
  refine .back ⟨same.sink, congrArg (Hasher.update · part) same.hasher, same.emitted, ?_⟩
  rwa [Nat.add_assoc] at agree

/-- With its header in place, the whole chunk is the same. -/
theorem Same.headed (same : Same first second) :
    Alike (Scratch.Agree 0 (headerLength + first.buffered)) first.headed second.headed := by
  have held := same.held
  unfold ChunkWriter.headed
  rw [← same.emitted, ← same.hasher]
  by_cases fresh : first.emitted = 0
  · rw [if_pos fresh] at held
    rw [if_pos fresh, if_pos fresh]
    have header : 0 + (Checksum.mk first.hasher.digest).header.length = headerLength := rfl
    rw [← header] at held
    exact held.fill_front
  · rw [if_neg fresh] at held
    rw [if_neg fresh, if_neg fresh]
    exact .back held

variable [Sink κ]

theorem Same.emit (same : Same first second) :
    Alike (SameReply fun _ => Same) first.emit second.emit := by
  unfold ChunkWriter.emit
  refine same.headed.bind fun filled filled' agree => ?_
  have rest := agree.within (Nat.zero_le first.emitted) (Nat.le_refl _)
  rw [rest.slice, ← same.sink, ← same.emitted, ← same.buffered]
  refine Alike.bind_same fun bytes _ => ?_
  refine Alike.bind_same fun (pushed, sink) _ => ?_
  dsimp only
  split
  next => exact .back ⟨rfl, rfl, rfl, rfl, Scratch.agree_nowhere headerLength _ _⟩
  next cause _ =>
    exact .back ⟨rfl, rfl, same.hasher, rfl, agree.within (Nat.zero_le _) (Nat.le_refl _)⟩

theorem Same.emitIf (same : Same first second) (due : Bool) :
    Alike (SameReply fun _ => Same) (first.emitIf due) (second.emitIf due) := by
  cases due with
  | true => exact same.emit
  | false => exact .back ⟨rfl, same⟩

theorem Same.absorb (same : Same first second) (parts : List Bytes) :
    Alike (SameReply fun _ => Same) (first.absorb parts) (second.absorb parts) := by
  induction parts generalizing first second with
  | nil => exact .back ⟨rfl, same⟩
  | cons part rest ih =>
    refine (same.buffer part).bind fun next next' filled => ?_
    have counted : ∀ {writer writer' : ChunkWriter κ}, Same writer writer' →
        Alike (SameReply fun _ => Same)
          (writer.absorb rest >>= fun result => return (part.length + result.1, result.2))
          (writer'.absorb rest >>= fun result => return (part.length + result.1, result.2)) := by
      intro writer writer' same
      refine (ih same).bind ?_
      rintro ⟨taken, last⟩ ⟨_, last'⟩ ⟨rfl, final⟩
      exact .back ⟨rfl, final⟩
    rw [← filled.buffered]
    by_cases full : next.buffered = payloadLength
    · rw [if_pos full, if_pos full]
      refine filled.emit.bind ?_
      rintro ⟨reply, emitted⟩ ⟨_, emitted'⟩ ⟨rfl, after⟩
      cases reply with
      | error cause => exact .back ⟨rfl, after⟩
      | ok _ => exact counted after
    · rw [if_neg full, if_neg full]
      exact counted filled

theorem Same.write (same : Same first second) (bytes : Bytes) :
    Alike (SameReply fun _ => Same) (first.write bytes) (second.write bytes) := by
  unfold ChunkWriter.write
  rw [← same.buffered]
  refine (same.emitIf _).bind ?_
  rintro ⟨reply, next⟩ ⟨_, next'⟩ ⟨rfl, after⟩
  cases reply with
  | error cause => exact .back ⟨rfl, after⟩
  | ok _ =>
    have parts : next'.parts bytes = next.parts bytes := by
      unfold ChunkWriter.parts
      rw [after.buffered]
    dsimp only
    rw [parts]
    refine (after.absorb _).bind ?_
    rintro ⟨taken, last⟩ ⟨_, last'⟩ ⟨rfl, final⟩
    exact .back ⟨rfl, final⟩

theorem Same.flush (same : Same first second) :
    SameReply (fun _ => Same) first.flush second.flush := by
  unfold ChunkWriter.flush
  rw [← same.sink]
  exact ⟨rfl, rfl, same.hasher, same.emitted, same.held⟩

theorem Same.finish (same : Same first second) :
    Alike (SameReply fun _ => Same) first.finish second.finish := by
  unfold ChunkWriter.finish
  rw [← same.buffered]
  refine (same.emitIf _).bind ?_
  rintro ⟨reply, next⟩ ⟨_, next'⟩ ⟨rfl, after⟩
  cases reply with
  | error cause => exact .back ⟨rfl, after⟩
  | ok _ => exact .back after.flush

theorem Same.answer (same : Same first second) (request : Request) :
    Alike (SameReply fun _ => Same) (first.answer request) (second.answer request) := by
  cases request with
  | write bytes =>
    refine (same.write bytes).bind ?_
    rintro ⟨reply, next⟩ ⟨_, next'⟩ ⟨rfl, after⟩
    exact .back ⟨rfl, after⟩
  | flush =>
    obtain ⟨reply, after⟩ := same.flush
    exact .back ⟨congrArg Exchange.flush reply, after⟩

theorem Same.serve (same : Same first second) (requests : List Request) :
    Alike (SameReply fun _ => Same) (first.serve requests) (second.serve requests) := by
  induction requests generalizing first second with
  | nil => exact .back ⟨rfl, same⟩
  | cons request requests ih =>
    refine (same.answer request).bind ?_
    rintro ⟨exchange, next⟩ ⟨_, next'⟩ ⟨rfl, after⟩
    refine (ih after).bind ?_
    rintro ⟨exchanges, last⟩ ⟨_, last'⟩ ⟨rfl, final⟩
    exact .back ⟨rfl, final⟩

end ChunkWriter

/-! ### Appends -/

namespace Appending

/-- Appends that differ in their buffers at most. -/
structure Same (first second : Appending σ ρ) : Prop where
  store : first.store = second.store
  source : first.source = second.source

variable {first second : Appending σ ρ}

/-- Once the last chunk has been read back, the buffers agree on its payload, too. -/
theorem Same.recoverTail [ReadableStore σ] (same : Same first second) (base size old : Nat) :
    Alike (SameReply fun reply first second => Same first second ∧
        (reply = .ok () → Scratch.Agree 0 (headerLength + old) first.scratch second.scratch))
      (first.recoverTail base size old) (second.recoverTail base size old) := by
  unfold Appending.recoverTail
  refine Alike.bind_same fun start _ => ?_
  rw [same.store]
  refine (SizedDecoder.ofStore_alike _ _ _ _ _ _).bind fun decoder decoder' alike => ?_
  have gathers : Alike (SameReply fun _ => Eq)
      (Source.gather decoder.source decoder.need chunkLength)
      (Source.gather decoder'.source decoder.need chunkLength) := by
    rw [← alike.source]
    exact .same_reply _
  refine (alike.fetch gathers).bind ?_
  rintro ⟨reply, next⟩ ⟨_, next'⟩ ⟨rfl, fetched, agree⟩
  have stores : next.source.store = next'.source.store := congrArg Span.store fetched.source
  dsimp only
  split
  next cause => exact .back ⟨rfl, ⟨stores, same.source⟩, fun done => (by cases done)⟩
  next found => exact .back ⟨rfl, ⟨stores, same.source⟩, fun done => (by cases done)⟩
  next count =>
    by_cases less : count < old
    · rw [if_pos less, if_pos less]
      exact .back ⟨rfl, ⟨stores, same.source⟩, fun done => (by cases done)⟩
    · rw [if_neg less, if_neg less]
      refine .back ⟨rfl, ⟨stores, same.source⟩, fun _ => ?_⟩
      exact (agree count rfl).within (Nat.le_refl 0) (by omega)

/-- The checksum is taken of the payload read back and of what has been filled in behind it. -/
theorem Same.extendTail [WritableStore σ] [Source ρ] (same : Same first second) {old : Nat}
    (agree : Scratch.Agree 0 (headerLength + old) first.scratch second.scratch)
    (offset added : Nat) :
    Alike (SameReply fun _ => Same) (first.extendTail offset old added)
      (second.extendTail offset old added) := by
  unfold Appending.extendTail
  rw [same.source, same.store]
  refine Alike.bind_same fun (gathered, source) _ => ?_
  refine (agree.fill_behind gathered.bytes).bind fun filled filled' extended => ?_
  dsimp only
  cases outcome : gathered.outcome added .unfilledBuffer with
  | error cause => exact .back ⟨rfl, rfl, rfl⟩
  | ok _ =>
    have whole : added ≤ gathered.bytes.length := Gathered.le_of_outcome outcome
    have inside : headerLength + old + added ≤ headerLength + old + gathered.bytes.length :=
      Nat.add_le_add_left whole _
    dsimp only
    rw [(extended.within (Nat.zero_le (headerLength + old)) inside).slice,
      (extended.within (Nat.zero_le headerLength) inside).slice]
    refine Alike.bind_same fun patch _ => ?_
    refine Alike.bind_same fun (reply, store) _ => ?_
    cases reply with
    | error cause => exact .back ⟨rfl, rfl, rfl⟩
    | ok _ => exact Alike.bind_same fun payload _ => .back ⟨rfl, rfl, rfl⟩

theorem Same.addChunks [WritableStore σ] [Source ρ] (same : Same first second) (offset count : Nat) :
    Alike (SameReply fun _ => Same) (first.addChunks offset count)
      (second.addChunks offset count) := by
  have start : Sealing.Same
      (⟨first.source, ⟨first.store, offset⟩, first.scratch⟩ : Sealing ρ (Cursor σ))
      ⟨second.source, ⟨second.store, offset⟩, second.scratch⟩ :=
    ⟨same.source, congrArg (Cursor.mk · offset) same.store⟩
  refine (start.run count).bind ?_
  rintro ⟨reply, last⟩ ⟨_, last'⟩ ⟨rfl, final⟩
  exact .back ⟨rfl, congrArg Cursor.store final.sink, final.source⟩

theorem Same.writeHeader [WritableStore σ] (same : Same first second) (offset : Nat) (sum : Checksum) :
    Alike (SameReply fun _ => Same) (first.writeHeader offset sum)
      (second.writeHeader offset sum) := by
  unfold Appending.writeHeader
  rw [same.store]
  exact Alike.bind_same fun (reply, store) _ => .back ⟨rfl, rfl, same.source⟩

theorem Same.run [ReadableStore σ] [WritableStore σ] [Source ρ] (same : Same first second)
    (base size count : Nat) :
    Alike (SameReply fun _ => Same) (first.run base size count) (second.run base size count) := by
  unfold Appending.run
  refine Alike.bind_same fun encoded _ => ?_
  refine Alike.bind_same fun offset _ => ?_
  by_cases aligned : offsetInChunk size = 0
  · rw [if_pos aligned, if_pos aligned]
    exact same.addChunks offset count
  · rw [if_neg aligned, if_neg aligned]
    refine Alike.bind_same fun header _ => ?_
    refine (same.recoverTail base size _).andThen ?_ fun _ _ _ failed => failed.1
    intro _ tail tail' ⟨recovered, agree⟩
    refine (recovered.extendTail (agree rfl) offset _).andThen ?_ fun _ _ _ failed => failed
    intro sum patched patched' extended
    refine Alike.bind_same fun behind _ => ?_
    refine (extended.addChunks behind _).andThen ?_ fun _ _ _ failed => failed
    intro _ grown grown' added
    exact added.writeHeader header sum

end Appending

namespace Archive

/-- Archives that differ in their buffers at most. -/
structure Same (first second : Archive σ) : Prop where
  store : first.store = second.store
  placement : first.placement = second.placement

variable [ReadableStore σ] [WritableStore σ] [Source ρ] {first second : Archive σ}

theorem Same.append (same : Same first second) (source : ρ) (count : Nat) :
    Alike (SameReply fun _ (last : Archive σ × ρ) last' => Same last.1 last'.1 ∧ last.2 = last'.2)
      (first.append source count) (second.append source count) := by
  unfold Archive.append
  rw [Archive.logicalSize, Archive.logicalSize, same.placement]
  split
  next error _ => exact .back ⟨rfl, same, rfl⟩
  next grown _ =>
    have start : Appending.Same (⟨first.store, source, first.scratch⟩ : Appending σ ρ)
        ⟨second.store, source, second.scratch⟩ := ⟨same.store, rfl⟩
    refine (start.run _ _ _).bind ?_
    rintro ⟨reply, last⟩ ⟨_, last'⟩ ⟨rfl, final⟩
    exact .back ⟨rfl, ⟨final.store, rfl⟩, final.source⟩

/-- Appends from one source after the other, whether or not they succeed. The archive works in its own
buffer, as the append before has left it. -/
def appendAll (archive : Archive σ) :
    List (ρ × Nat) → Checked (List (Except StreamError Unit × ρ) × Archive σ)
  | [] => return ([], archive)
  | (source, count) :: requests => do
    let (reply, archive, source) ← archive.append source count
    let (replies, archive) ← archive.appendAll requests
    return ((reply, source) :: replies, archive)

theorem Same.appendAll (same : Same first second) (requests : List (ρ × Nat)) :
    Alike (SameReply fun _ => Same) (first.appendAll requests) (second.appendAll requests) := by
  induction requests generalizing first second with
  | nil => exact .back ⟨rfl, same⟩
  | cons request requests ih =>
    refine (same.append request.1 request.2).bind ?_
    rintro ⟨reply, next, source⟩ ⟨_, next', _⟩ ⟨rfl, after, rfl⟩
    refine (ih after).bind ?_
    rintro ⟨replies, last⟩ ⟨_, last'⟩ ⟨rfl, final⟩
    exact .back ⟨rfl, final⟩

end Archive

/-! ### Recorded calls -/

/-- A call to a device, with what was asked and what came of it. -/
inductive DeviceCall where
  | read (room : Nat) (reply : Except IoError Bytes)
  | write (bytes : Bytes) (reply : Except IoError Nat)
  | flush (reply : Except IoError Unit)
  | readAt (offset room : Nat) (reply : Except IoError Bytes)
  | writeAt (offset : Nat) (bytes : Bytes) (reply : Except IoError Nat)

/-- A device with a record of the calls that were made to it. -/
structure Recorded (δ : Type) where
  device : δ
  calls : List DeviceCall

namespace Recorded

variable {δ : Type}

/-- The device after a call, which is entered into the record. -/
def enter (recorded : Recorded δ) (call : DeviceCall) (device : δ) : Recorded δ :=
  ⟨device, recorded.calls ++ [call]⟩

/-- A call brings what the device does, and leaves the device as that does. -/
theorem of_call {α : Type} {recorded next : Recorded δ} {step : Checked (Except IoError α × δ)}
    {entry : Except IoError α → DeviceCall} {reply : Except IoError α}
    (run : (step >>= fun (reply, device) => .ok (reply, recorded.enter (entry reply) device)) =
      .ok (reply, next)) : step = .ok (reply, next.device) := by
  obtain ⟨⟨reply, device⟩, inner, run⟩ := Checked.bind_eq_ok_iff.mp run
  cases run
  exact inner

instance [Source δ] : Source (Recorded δ) where
  read recorded room := do
    let (reply, device) ← Source.read recorded.device room
    return (reply, recorded.enter (.read room reply) device)
  interruptions recorded := Source.interruptions recorded.device
  length_le_room call := Source.length_le_room (of_call call)
  interruptions_le call := Source.interruptions_le (of_call call)
  interruptions_lt call := Source.interruptions_lt (of_call call)

instance [Sink δ] : Sink (Recorded δ) where
  write recorded bytes := do
    let (reply, device) ← Sink.write recorded.device bytes
    return (reply, recorded.enter (.write bytes reply) device)
  flush recorded :=
    let (reply, device) := Sink.flush recorded.device
    (reply, recorded.enter (.flush reply) device)
  interruptions recorded := Sink.interruptions recorded.device
  taken_le_length call := Sink.taken_le_length (of_call call)
  interruptions_le call := Sink.interruptions_le (of_call call)
  interruptions_lt call := Sink.interruptions_lt (of_call call)

instance [ReadableStore δ] : ReadableStore (Recorded δ) where
  readAt recorded offset room := do
    let (reply, device) ← ReadableStore.readAt recorded.device offset room
    return (reply, recorded.enter (.readAt offset room reply) device)
  readInterruptions recorded := ReadableStore.readInterruptions recorded.device
  length_le_room call := ReadableStore.length_le_room (of_call call)
  readInterruptions_le call := ReadableStore.readInterruptions_le (of_call call)
  readInterruptions_lt call := ReadableStore.readInterruptions_lt (of_call call)

instance [WritableStore δ] : WritableStore (Recorded δ) where
  writeAt recorded offset bytes := do
    let (reply, device) ← WritableStore.writeAt recorded.device offset bytes
    return (reply, recorded.enter (.writeAt offset bytes reply) device)
  writeInterruptions recorded := WritableStore.writeInterruptions recorded.device
  taken_le_length call := WritableStore.taken_le_length (of_call call)
  writeInterruptions_le call := WritableStore.writeInterruptions_le (of_call call)
  writeInterruptions_lt call := WritableStore.writeInterruptions_lt (of_call call)

end Recorded

/-! ### What shows of a run -/

/-- What a run brings is the same for all scratch buffers that it may be given. -/
def Scratch.Unseen {α : Type} (run : Scratch → Checked α) : Prop :=
  ∀ first second, run first = run second

open Scratch (Unseen)

theorem Sealing.run_unseen [Source ρ] [Sink κ] (source : ρ) (sink : κ) (size : Nat) :
    Unseen fun scratch => (run ⟨source, sink, scratch⟩ size).map fun (reply, last) =>
      (reply, last.source, last.sink) := by
  intro first second
  have same : Same (⟨source, sink, first⟩ : Sealing ρ κ) ⟨source, sink, second⟩ := ⟨rfl, rfl⟩
  refine (same.run size).map_eq ?_
  rintro ⟨reply, last⟩ ⟨_, last'⟩ ⟨rfl, final⟩
  dsimp only
  rw [final.source, final.sink]

theorem Appending.run_unseen [ReadableStore σ] [WritableStore σ] [Source ρ] (store : σ) (source : ρ)
    (base size count : Nat) :
    Unseen fun scratch => (run ⟨store, source, scratch⟩ base size count).map fun (reply, last) =>
      (reply, last.store, last.source) := by
  intro first second
  have same : Same (⟨store, source, first⟩ : Appending σ ρ) ⟨store, source, second⟩ := ⟨rfl, rfl⟩
  refine (same.run base size count).map_eq ?_
  rintro ⟨reply, last⟩ ⟨_, last'⟩ ⟨rfl, final⟩
  dsimp only
  rw [final.store, final.source]

theorem RangeCopy.run_unseen [ReadableStore σ] [Sink κ] (store : σ) (sink : κ)
    (base start stop : Nat) :
    Unseen fun scratch => (run ⟨store, sink, scratch⟩ base start stop).map fun (reply, last) =>
      (reply, last.store, last.sink) := by
  intro first second
  have same : Same Eq (⟨store, sink, first⟩ : RangeCopy σ κ) ⟨store, sink, second⟩ := ⟨rfl, rfl⟩
  have common : ∀ index, Common (@Eq σ) base index := by
    rintro index store _ offset rfl _
    exact .same_reply _
  refine (same.run fun index _ _ => common index).map_eq ?_
  rintro ⟨reply, last⟩ ⟨_, last'⟩ ⟨rfl, final⟩
  dsimp only
  rw [final.store, final.sink]

/-- Of readers that are twins, and show the same, any reads show the same. -/
theorem Source.Twins.readEach_eq {α : Type} [Source ρ] {Related : ρ → ρ → Prop}
    (twins : Twins Related) {first second : ρ} (related : Related first second) (rooms : List Nat)
    (shown : ρ → α) (same : ∀ first second, Related first second → shown first = shown second) :
    (Source.readEach first rooms).map (fun (replies, last) => (replies, shown last)) =
      (Source.readEach second rooms).map fun (replies, last) => (replies, shown last) := by
  refine (twins.readEach related rooms).map_eq ?_
  rintro ⟨replies, last⟩ ⟨_, last'⟩ ⟨rfl, final⟩
  dsimp only
  rw [same _ _ final]

theorem SizedDecoder.reads_unseen [Source ρ] (source : ρ) (size : Nat) (rooms : List Nat) :
    Unseen fun scratch => (Source.readEach (create source size scratch) rooms).map
      fun (replies, last) => (replies, last.source) := by
  intro first second
  have same : Same Eq (create source size first) (create source size second) :=
    ⟨rfl, rfl, rfl, rfl⟩
  exact twins.readEach_eq same rooms _ fun _ _ same => same.source

theorem StreamDecoder.reads_unseen [Source ρ] (source : ρ) (rooms : List Nat) :
    Unseen fun scratch => (Source.readEach (create source scratch) rooms).map
      fun (replies, last) => (replies, last.frames.source) := by
  intro first second
  have same : Same (create source first) (create source second) := ⟨rfl, rfl, rfl, rfl⟩
  exact twins.readEach_eq same rooms _ fun _ _ same => same.source

theorem StreamEncoder.reads_unseen [Source ρ] (source : ρ) (rooms : List Nat) :
    Unseen fun scratch => (Source.readEach (create source scratch) rooms).map
      fun (replies, last) => (replies, last.source) := by
  intro first second
  have same : Same (create source first) (create source second) := ⟨rfl, rfl, rfl⟩
  exact twins.readEach_eq same rooms _ fun _ _ same => same.source

namespace RangeReader

/-- Opens a reader of a range and reads from it, with a buffer of each given length in turn. -/
def openAndRead [ReadableStore σ] (store : σ) (base start stop size : Nat) (rooms : List Nat)
    (scratch : Scratch) : Checked (Except StreamError (List (Except IoError Bytes) × σ)) := do
  match ← create store base start stop size scratch with
  | .error error => return .error error
  | .ok reader =>
    let (replies, last) ← Source.readEach reader rooms
    return .ok (replies, last.store)

theorem reads_unseen [ReadableStore σ] (store : σ) (base start stop size : Nat) (rooms : List Nat) :
    Unseen (openAndRead store base start stop size rooms) := by
  intro first second
  have opens : Alike (SameOutcome (Same (SizedDecoder.Same Eq) fun _ => SizedDecoder.Same Eq))
      (create store base start stop size first) (create store base start stop size second) :=
    create_alike (fun _ => SizedDecoder.ofStore_alike store base start size first second)
      (fun _ _ same _ _ => same) fun _ _ same _ => same
  have alike : Alike Eq (openAndRead store base start stop size rooms first)
      (openAndRead store base start stop size rooms second) := by
    refine opens.bind fun reply reply' opened => ?_
    cases opened with
    | error error => exact .same _
    | ok same =>
      refine ((twins SizedDecoder.twins SizedDecoder.twins.shares).readEach same rooms).bind ?_
      rintro ⟨replies, last⟩ ⟨_, last'⟩ ⟨rfl, final⟩
      have stores : last.store = last'.store := by
        cases final with
        | whole entire => exact congrArg Span.store entire.source
        | windowed same => exact congrArg Span.store same.inner.source
      dsimp only
      rw [stores]
      exact .same _
  exact alike.eq

end RangeReader

/-- Makes calls to a writer and then finishes it. Shown are the replies, the bytes that wait and the
sink, before finishing and at the end. -/
def ChunkWriter.serveAndFinish [Sink κ] (sink : κ) (requests : List Request) (scratch : Scratch) :
    Checked ((List Exchange × Nat × κ) × Except IoError Unit × κ) := do
  let (exchanges, writer) ← (create sink scratch).serve requests
  let (reply, last) ← writer.finish
  return ((exchanges, writer.buffered, writer.sink), reply, last.sink)

theorem ChunkWriter.calls_unseen [Sink κ] (sink : κ) (requests : List Request) :
    Unseen (serveAndFinish sink requests) := by
  intro first second
  have alike : Alike Eq (serveAndFinish sink requests first) (serveAndFinish sink requests second) := by
    refine ((Same.create sink first second).serve requests).bind ?_
    rintro ⟨exchanges, writer⟩ ⟨_, writer'⟩ ⟨rfl, served⟩
    refine served.finish.bind ?_
    rintro ⟨reply, last⟩ ⟨_, last'⟩ ⟨rfl, final⟩
    dsimp only
    rw [served.buffered, served.sink, final.sink]
    exact .same _
  exact alike.eq

theorem Archive.appends_unseen [ReadableStore σ] [WritableStore σ] [Source ρ] (store : σ)
    (placement : Placement) (requests : List (ρ × Nat)) :
    Unseen fun scratch => (appendAll ⟨store, placement, scratch⟩ requests).map
      fun (replies, last) => (replies, last.store, last.placement) := by
  intro first second
  have same : Same (⟨store, placement, first⟩ : Archive σ) ⟨store, placement, second⟩ := ⟨rfl, rfl⟩
  refine (same.appendAll requests).map_eq ?_
  rintro ⟨replies, last⟩ ⟨_, last'⟩ ⟨rfl, final⟩
  dsimp only
  rw [final.store, final.placement]

/-- What a scratch buffer held before never shows: not in the replies, nor in what the devices are left
with, nor in the calls that were made to them, whatever the devices do and whether or not the operation
succeeds. This is so of sealing a source into a sink, of appending to a stored stream, of copying a
range, of any reads from a decoder, an encoder or a range reader, of any calls to a chunk writer and
finishing it, and of any appends in a row to an archive, which works in a buffer of its own. -/
theorem Scratch.never_shows [Source ρ] [Sink κ] [ReadableStore σ] [WritableStore σ]
    (source : Recorded ρ) (sink : Recorded κ) (store : Recorded σ) :
    (∀ size, Unseen fun scratch => (Sealing.run ⟨source, sink, scratch⟩ size).map
      fun (reply, last) => (reply, last.source, last.sink)) ∧
    (∀ base size count, Unseen fun scratch =>
      (Appending.run ⟨store, source, scratch⟩ base size count).map
        fun (reply, last) => (reply, last.store, last.source)) ∧
    (∀ base start stop, Unseen fun scratch =>
      (RangeCopy.run ⟨store, sink, scratch⟩ base start stop).map
        fun (reply, last) => (reply, last.store, last.sink)) ∧
    (∀ size rooms, Unseen fun scratch =>
      (Source.readEach (SizedDecoder.create source size scratch) rooms).map
        fun (replies, last) => (replies, last.source)) ∧
    (∀ rooms, Unseen fun scratch =>
      (Source.readEach (StreamDecoder.create source scratch) rooms).map
        fun (replies, last) => (replies, last.frames.source)) ∧
    (∀ rooms, Unseen fun scratch =>
      (Source.readEach (StreamEncoder.create source scratch) rooms).map
        fun (replies, last) => (replies, last.source)) ∧
    (∀ requests, Unseen (ChunkWriter.serveAndFinish sink requests)) ∧
    (∀ base start stop size rooms, Unseen (RangeReader.openAndRead store base start stop size rooms)) ∧
    (∀ placement (requests : List (Recorded ρ × Nat)), Unseen fun scratch =>
      (Archive.appendAll ⟨store, placement, scratch⟩ requests).map
        fun (replies, last) => (replies, last.store, last.placement)) :=
  ⟨Sealing.run_unseen source sink, Appending.run_unseen store source, RangeCopy.run_unseen store sink,
    SizedDecoder.reads_unseen source, StreamDecoder.reads_unseen source,
    StreamEncoder.reads_unseen source, ChunkWriter.calls_unseen sink,
    RangeReader.reads_unseen store, Archive.appends_unseen store⟩

end SealedStream
