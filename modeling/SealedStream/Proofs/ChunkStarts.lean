import SealedStream.Proofs.Sizes
import SealedStream.Store.Archive

/-!
# Operations that locate chunks

The shift that gives the start of a chunk drops the bits that do not fit, and nothing shows that it
has. Here the operations that use starts are given with the way to `locate` a chunk as a parameter.
With `wrappedStart`, which is the shift as it is, each of them is the operation that runs. With
`exactStart` it stops where it would go on with a start that has lost bits. An operation locates no
chunk past the end of its stream (`Locates`), so on a stream that ends below the offset limit the two
agree.
-/
namespace SealedStream

open Layout

namespace Layout

/-- The start of a chunk, less the bits that are lost. -/
def wrappedStart (index : Nat) : Checked Nat :=
  .ok (chunkStart index)

/-- The start of a chunk, if it has lost no bit. -/
def exactStart (index : Nat) : Checked Nat :=
  if chunkStart index = chunkLength * index then .ok (chunkStart index) else .error .overflow

/-- The chunks of a stream of `size` bytes are located where the shift says. -/
def Locates (locate : Nat → Checked Nat) (size : Nat) : Prop :=
  ∀ index ≤ chunkIndex size, locate index = .ok (chunkStart index)

variable {locate : Nat → Checked Nat} {small size : Nat}

theorem chunkIndex_mono (le : small ≤ size) : chunkIndex small ≤ chunkIndex size :=
  Nat.div_le_div_right le

theorem Locates.mono (locates : Locates locate size) (le : small ≤ size) : Locates locate small :=
  fun index before => locates index (Nat.le_trans before (chunkIndex_mono le))

/-- The chunk that holds an offset of the stream is located. -/
theorem Locates.holder (locates : Locates locate size) (inside : small ≤ size) :
    locate (chunkIndex small) = .ok (chunkStart (chunkIndex small)) :=
  locates _ (chunkIndex_mono inside)

theorem wrappedStart_locates (size : Nat) : Locates wrappedStart size :=
  fun _ _ => rfl

/-- No chunk of a stream that ends below the offset limit has a start that loses bits. -/
theorem exactStart_locates (fits : encodedLength size < offsetLimit) : Locates exactStart size := by
  intro index inside
  -- The chunk that holds the end of the data starts before the encoded stream ends.
  have front := Nat.mul_le_mul_left chunkLength inside
  have bound := chunkStart_le size size (Nat.le_refl size)
  exact if_pos (chunkStart_eq index (by omega))

end Layout

variable (locate : Nat → Checked Nat)

/-! ### Reading a range -/

def SizedDecoder.ofStoreBy {σ : Type} (store : σ) (base start size : Nat) (scratch : Scratch) :
    Checked (SizedDecoder (Span σ)) := do
  let before ← locate (chunkIndex start)
  let extent ← Checked.sub (← encodedSize size) before
  let offset ← Checked.add base before
  return .create (.create store offset extent) (← logicalSize extent) scratch

def RangeReader.createBy {σ : Type} (store : σ) (base start stop size : Nat) (scratch : Scratch) :
    Checked (Except StreamError (RangeReader σ)) := do
  if stop < start ∨ size < start then
    return .error (.fault (.invalidRange start stop size))
  else
    let decoder ← SizedDecoder.ofStoreBy locate store base start size scratch
    let skip := offsetInChunk start
    if skip = 0 ∧ size ≤ stop then return .ok (.whole decoder)
    else return .ok (.windowed (.create decoder skip (stop - start)))

/-! ### Copying a range -/

namespace RangeCopy

variable {σ κ : Type} [ReadableStore σ] [Sink κ]

def partBy (copy : RangeCopy σ κ) (base index start stop : Nat) :
    Checked (Except StreamError Unit × RangeCopy σ κ) := do
  let offset ← Checked.add base (← locate index)
  let (gathered, store) ← ReadableStore.readFullAt copy.store offset chunkLength
  let scratch ← copy.scratch.fill 0 gathered.bytes
  let copy := { copy with store, scratch }
  match gathered.failure with
  | some cause => return (.error (.source cause.toIo), copy)
  | none =>
    let length := gathered.bytes.length
    if length = 0 then return (.error (.source (.bare .unexpectedEof)), copy)
    else
      match Frame.verify (← scratch.slice 0 length) with
      | .error found => return (.error (.fault (.damage found)), copy)
      | .ok _ =>
        if length < headerLength + stop then
          return (.error (.source (.bare .unexpectedEof)), copy)
        else
          let bytes ← scratch.slice (headerLength + start) (headerLength + stop)
          let (reply, sink) ← Sink.writeAll copy.sink bytes
          return (reply.mapError fun cause => .sink cause.toIo, { copy with sink })

def chunksBy (copy : RangeCopy σ κ) (base index last start : Nat) :
    Checked (Except StreamError Unit × RangeCopy σ κ) :=
  if index < last then
    (copy.partBy locate base index start payloadLength).andThen fun _ copy =>
      copy.chunksBy base (index + 1) last 0
  else return (.ok (), copy)
termination_by last - index

def runBy (copy : RangeCopy σ κ) (base start stop : Nat) :
    Checked (Except StreamError Unit × RangeCopy σ κ) :=
  if stop ≤ start then return (.ok (), copy)
  else
    let first := chunkIndex start
    let last := chunkIndex stop
    let rest := offsetInChunk stop
    if first = last then copy.partBy locate base first (offsetInChunk start) rest
    else
      (copy.chunksBy locate base first last (offsetInChunk start)).andThen fun _ copy =>
        if 0 < rest then copy.partBy locate base last 0 rest else return (.ok (), copy)

end RangeCopy

/-! ### Appending -/

namespace Appending

variable {σ ρ : Type} [ReadableStore σ] (appending : Appending σ ρ)

def recoverTailBy (base size old : Nat) :
    Checked (Except StreamError Unit × Appending σ ρ) := do
  let decoder ← SizedDecoder.ofStoreBy locate appending.store base (← Checked.sub size old) size
    appending.scratch
  let (reply, decoder) ← decoder.fetch
  let appending :=
    { appending with store := decoder.source.store, scratch := decoder.scratch }
  match reply with
  | .error (.source cause) => return (.error (.sink cause.toIo), appending)
  | .error (.damage found) => return (.error (.fault (.damage found)), appending)
  | .ok count =>
    if count < old then return (.error (.sink (.bare .unexpectedEof)), appending)
    else return (.ok (), appending)

def runBy [WritableStore σ] [Source ρ] (base size count : Nat) :
    Checked (Except StreamError Unit × Appending σ ρ) := do
  let offset ← Checked.add base (← encodedSize size)
  let old := offsetInChunk size
  if old = 0 then appending.addChunks offset count
  else
    let header ← Checked.add base (← locate (chunkIndex size))
    let added := min (payloadLength - old) count
    (appending.recoverTailBy locate base size old).andThen fun _ appending =>
      (appending.extendTail offset old added).andThen fun sum appending => do
        let offset ← Checked.add offset added
        (appending.addChunks offset (count - added)).andThen fun _ appending =>
          appending.writeHeader header sum

end Appending

/-! ### Archives -/

namespace Archive

variable {σ : Type} (archive : Archive σ)

def readerBy (start stop : Nat) : Checked (Except StreamError (RangeReader σ)) :=
  match archive.checkRange start stop with
  | .error error => return .error error
  | .ok () =>
    RangeReader.createBy locate archive.store archive.placement.base start stop archive.logicalSize
      .zero

variable [ReadableStore σ]

def copyRangeBy {κ : Type} [Sink κ] (sink : κ) (start stop : Nat) :
    Checked (Except StreamError Unit × Archive σ × κ) := do
  let (reply, copy) ←
    RangeCopy.runBy locate ⟨archive.clipped, sink, .zero⟩ archive.placement.base start stop
  return (reply, { archive with store := copy.store.store }, copy.sink)

def readRangeBy {κ : Type} [Sink κ] (sink : κ) (start stop : Nat) :
    Checked (Except StreamError Unit × Archive σ × κ) :=
  match archive.checkRange start stop with
  | .error error => return (.error error, archive, sink)
  | .ok () => archive.copyRangeBy locate sink start stop

def verifyBy : Checked (Except StreamError Nat × Archive σ) := do
  let (reply, archive, _) ← archive.copyRangeBy locate Drain.mk 0 archive.logicalSize
  return (reply.map fun _ => chunkCount archive.logicalSize, archive)

variable [WritableStore σ]

def appendBy {ρ : Type} [Source ρ] (source : ρ) (count : Nat) :
    Checked (Except StreamError Unit × Archive σ × ρ) :=
  match archive.placement.grow count with
  | .error error => return (.error error, archive, source)
  | .ok grown => do
    let (reply, appending) ←
      Appending.runBy locate ⟨archive.store, source, archive.scratch⟩ archive.placement.base
        archive.logicalSize count
    let placement := if reply.isOk then grown else archive.placement
    return (reply, ⟨appending.store, placement, appending.scratch⟩, appending.source)

def appendBytesBy (bytes : Bytes) : Checked (Except StreamError Unit × Archive σ) := do
  let (reply, archive, _) ← archive.appendBy locate (Feed.ofBytes bytes) bytes.length
  return (reply, archive)

end Archive

/-! ### Chunks inside the stream -/

variable {locate}

theorem SizedDecoder.ofStoreBy_eq {σ : Type} (store : σ) (base : Nat) {start size : Nat}
    (scratch : Scratch) (locates : Locates locate size) (inside : start ≤ size) :
    ofStoreBy locate store base start size scratch = ofStore store base start size scratch := by
  rw [ofStoreBy, locates.holder inside]
  rfl

theorem RangeReader.createBy_eq {σ : Type} (store : σ) (base start stop : Nat) {size : Nat}
    (scratch : Scratch) (locates : Locates locate size) :
    createBy locate store base start stop size scratch =
      create store base start stop size scratch := by
  unfold createBy create
  by_cases outside : stop < start ∨ size < start
  · rw [if_pos outside, if_pos outside]
  · rw [if_neg outside, if_neg outside,
      SizedDecoder.ofStoreBy_eq store base scratch locates (by omega)]

namespace RangeCopy

variable {σ κ : Type} [ReadableStore σ] [Sink κ]

theorem partBy_eq (copy : RangeCopy σ κ) (base : Nat) {index : Nat} (start stop : Nat)
    (located : locate index = .ok (chunkStart index)) :
    copy.partBy locate base index start stop = copy.part base index start stop := by
  rw [partBy, located, Checked.ok_bind]
  rfl

theorem chunksBy_eq (copy : RangeCopy σ κ) (base index last start : Nat)
    (located : ∀ other < last, locate other = .ok (chunkStart other)) :
    copy.chunksBy locate base index last start = copy.chunks base index last start := by
  fun_induction chunks copy base index last start with
  | case1 copy index start more ih =>
    -- The rest of the loop is another one for every state that the part leaves.
    rw [chunksBy, if_pos more, partBy_eq copy base start _ (located index more)]
    congr 1
    funext _ next
    exact ih next
  | case2 copy index start done => rw [chunksBy, if_neg done]

/-- A copy locates the chunks up to the one that holds its end. -/
theorem runBy_eq (copy : RangeCopy σ κ) (base start : Nat) {stop : Nat}
    (locates : Locates locate stop) :
    copy.runBy locate base start stop = copy.run base start stop := by
  unfold runBy run
  by_cases none : stop ≤ start
  · rw [if_pos none, if_pos none]
  · have ordered : start ≤ stop := Nat.le_of_not_le none
    have last := locates.holder (Nat.le_refl stop)
    rw [if_neg none, if_neg none]
    simp only [partBy_eq _ base _ _ (locates.holder ordered), partBy_eq _ base _ _ last,
      chunksBy_eq copy base _ _ _ fun other before => locates other (Nat.le_of_lt before)]

end RangeCopy

namespace Appending

variable {σ ρ : Type} [ReadableStore σ] (appending : Appending σ ρ) (base : Nat) {size : Nat}
  (locates : Locates locate size)

include locates

theorem recoverTailBy_eq (old : Nat) :
    appending.recoverTailBy locate base size old = appending.recoverTail base size old := by
  unfold recoverTailBy recoverTail
  cases front : Checked.sub size old with
  | error trap => rfl
  | ok start =>
    -- The last chunk starts inside the stream, and what follows the decoder is the same.
    obtain ⟨_, rfl⟩ := Checked.sub_eq_ok_iff.mp front
    rw [Checked.ok_bind, Checked.ok_bind]
    exact congrArg (· >>= _) (SizedDecoder.ofStoreBy_eq _ base _ locates (Nat.sub_le size old))

/-- An append locates the last chunk of the stream. -/
theorem runBy_eq [WritableStore σ] [Source ρ] (count : Nat) :
    appending.runBy locate base size count = appending.run base size count := by
  unfold runBy run
  rw [locates.holder (Nat.le_refl size)]
  simp only [Checked.ok_bind, recoverTailBy_eq appending base locates]

end Appending

namespace Archive

variable {σ : Type} (archive : Archive σ) (locates : Locates locate archive.logicalSize)

include locates

theorem readerBy_eq (start stop : Nat) :
    archive.readerBy locate start stop = archive.reader start stop := by
  unfold readerBy reader
  cases archive.checkRange start stop with
  | error error => rfl
  | ok _ => exact RangeReader.createBy_eq _ _ start stop _ locates

variable [ReadableStore σ]

theorem copyRangeBy_eq {κ : Type} [Sink κ] (sink : κ) (start : Nat) {stop : Nat}
    (inside : stop ≤ archive.logicalSize) :
    archive.copyRangeBy locate sink start stop = archive.copyRange sink start stop := by
  unfold copyRangeBy copyRange
  rw [RangeCopy.runBy_eq _ _ start (locates.mono inside)]

theorem readRangeBy_eq {κ : Type} [Sink κ] (sink : κ) (start stop : Nat) :
    archive.readRangeBy locate sink start stop = archive.readRange sink start stop := by
  unfold readRangeBy readRange checkRange
  by_cases outside : stop < start ∨ archive.logicalSize < stop
  · rw [if_pos outside]
  · rw [if_neg outside, copyRangeBy_eq archive locates sink start (by omega)]

theorem verifyBy_eq : archive.verifyBy locate = archive.verify := by
  unfold verifyBy verify
  rw [copyRangeBy_eq archive locates Drain.mk 0 (Nat.le_refl _)]

variable [WritableStore σ]

theorem appendBy_eq {ρ : Type} [Source ρ] (source : ρ) (count : Nat) :
    archive.appendBy locate source count = archive.append source count := by
  unfold appendBy append
  cases archive.placement.grow count with
  | error error => rfl
  | ok grown => exact congrArg (· >>= _) (Appending.runBy_eq _ _ locates count)

theorem appendBytesBy_eq (bytes : Bytes) :
    archive.appendBytesBy locate bytes = archive.appendBytes bytes := by
  unfold appendBytesBy appendBytes
  rw [appendBy_eq archive locates]

end Archive

end SealedStream
