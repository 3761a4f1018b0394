import SealedStream.Device.Feed
import SealedStream.Device.Outlet
import SealedStream.Store.Placement
import SealedStream.Store.RangeCopy
import SealedStream.Writer.Appending

/-!
# Archives

An archive is a store with an encoded stream in it, which can be appended to and read by logical
range. Its logical size grows only when an append has succeeded. Copying and verifying never look
past the end of the encoded stream.
-/

namespace SealedStream

structure Archive (σ : Type) where
  store : σ
  placement : Placement
  scratch : Scratch

namespace Archive

variable {σ : Type}

/-- An archive of an empty stream at the start of a store. -/
def fresh (store : σ) : Archive σ :=
  ⟨store, .origin, .zero⟩

/-- An archive of the stream that is already in a store. -/
def mount (store : σ) (placement : Placement) : Except StreamError (Archive σ) := do
  placement.validate
  return ⟨store, placement, .zero⟩

def logicalSize (archive : Archive σ) : Nat :=
  archive.placement.logicalSize

def encodedSize (archive : Archive σ) : Checked Nat :=
  Layout.encodedSize archive.logicalSize

/-- The store without what lies past the end of the encoded stream. -/
def clipped (archive : Archive σ) : Clipped σ :=
  ⟨archive.store, archive.placement.encodedEnd?.getD (offsetLimit - 1)⟩

/-- The range has to lie in the stream. -/
def checkRange (archive : Archive σ) (start stop : Nat) : Except StreamError Unit :=
  if stop < start ∨ archive.logicalSize < stop then
    .error (.fault (.invalidRange start stop archive.logicalSize))
  else .ok ()

/-- A reader of a logical range. -/
def reader (archive : Archive σ) (start stop : Nat) :
    Checked (Except StreamError (RangeReader σ)) :=
  match archive.checkRange start stop with
  | .error error => return .error error
  | .ok () =>
    RangeReader.create archive.store archive.placement.base start stop archive.logicalSize .zero

/-- Copies the clipped stream's range, whether or not it lies in the stream. -/
def copyRange {κ : Type} [ReadableStore σ] [Sink κ] (archive : Archive σ) (sink : κ)
    (start stop : Nat) : Checked (Except StreamError Unit × Archive σ × κ) := do
  let (reply, copy) ←
    RangeCopy.run ⟨archive.clipped, sink, .zero⟩ archive.placement.base start stop
  return (reply, { archive with store := copy.store.store }, copy.sink)

/-- Writes a logical range to a sink. -/
def readRange {κ : Type} [ReadableStore σ] [Sink κ] (archive : Archive σ) (sink : κ)
    (start stop : Nat) : Checked (Except StreamError Unit × Archive σ × κ) :=
  match archive.checkRange start stop with
  | .error error => return (.error error, archive, sink)
  | .ok () => archive.copyRange sink start stop

/-- Verifies every chunk, and tells how many there are. -/
def verify [ReadableStore σ] (archive : Archive σ) :
    Checked (Except StreamError Nat × Archive σ) := do
  let (reply, archive, _) ← archive.copyRange Drain.mk 0 archive.logicalSize
  return (reply.map fun _ => Layout.chunkCount archive.logicalSize, archive)

variable [ReadableStore σ] [WritableStore σ]

/-- Appends `count` bytes of a source. A size that cannot be placed is refused before anything is
read or written. -/
def append {ρ : Type} [Source ρ] (archive : Archive σ) (source : ρ) (count : Nat) :
    Checked (Except StreamError Unit × Archive σ × ρ) :=
  match archive.placement.grow count with
  | .error error => return (.error error, archive, source)
  | .ok grown => do
    let (reply, appending) ←
      Appending.run ⟨archive.store, source, archive.scratch⟩ archive.placement.base
        archive.logicalSize count
    -- A failed append may have written, but the stream keeps its size.
    let placement := if reply.isOk then grown else archive.placement
    return (reply, ⟨appending.store, placement, appending.scratch⟩, appending.source)

/-- Appends all bytes given. -/
def appendBytes (archive : Archive σ) (bytes : Bytes) :
    Checked (Except StreamError Unit × Archive σ) := do
  let (reply, archive, _) ← archive.append (Feed.ofBytes bytes) bytes.length
  return (reply, archive)

end Archive

end SealedStream
