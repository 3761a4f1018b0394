import SealedStream.Reader.RangeReader
import SealedStream.Writer.Sealing

/-!
# Appending to a stored stream

New bytes first fill up the last chunk of the stored stream, then go into chunks of their own. The
last chunk is read back and verified before anything is written, and its header is written after all
else: until then, the header of the old payload is in place.
-/

namespace SealedStream

structure Appending (σ ρ : Type) where
  store : σ
  source : ρ
  scratch : Scratch

namespace Appending

variable {σ ρ : Type} [ReadableStore σ] [WritableStore σ] [Source ρ]

/-- Reads back the last chunk, which holds `old` payload bytes, and leaves it in the scratch
buffer. -/
def recoverTail (appending : Appending σ ρ) (base size old : Nat) :
    Checked (Except StreamError Unit × Appending σ ρ) := do
  let decoder ←
    SizedDecoder.ofStore appending.store base (← Checked.sub size old) size appending.scratch
  let (reply, decoder) ← decoder.fetch
  let appending :=
    { appending with store := decoder.source.store, scratch := decoder.scratch }
  match reply with
  | .error (.source cause) => return (.error (.sink cause.toIo), appending)
  | .error (.damage found) => return (.error (.fault (.damage found)), appending)
  | .ok count =>
    if count < old then return (.error (.sink (.bare .unexpectedEof)), appending)
    else return (.ok (), appending)

/-- Takes `added` bytes from the source and stores them at `offset`, behind the `old` bytes of the
last chunk. The value is the checksum of the chunk as it is then. -/
def extendTail (appending : Appending σ ρ) (offset old added : Nat) :
    Checked (Except StreamError Checksum × Appending σ ρ) := do
  let start := Layout.headerLength + old
  let (gathered, source) ← Source.readFull appending.source added
  let scratch ← appending.scratch.fill start gathered.bytes
  let appending := { appending with source, scratch }
  match gathered.outcome added .unfilledBuffer with
  | .error cause => return (.error (.source cause.toIo), appending)
  | .ok () =>
    let patch ← scratch.slice start (start + added)
    let (reply, store) ← WritableStore.writeAllAt appending.store offset patch
    let appending := { appending with store }
    match reply with
    | .error cause => return (.error (.sink cause.toIo), appending)
    | .ok () =>
      let payload ← scratch.slice Layout.headerLength (start + added)
      return (.ok (.of payload), appending)

/-- Seals `count` bytes of the source into the store from `offset` on. -/
def addChunks (appending : Appending σ ρ) (offset count : Nat) :
    Checked (Except StreamError Unit × Appending σ ρ) := do
  let cursor : Cursor σ := ⟨appending.store, offset⟩
  let (reply, sealing) ← Sealing.run ⟨appending.source, cursor, appending.scratch⟩ count
  return (reply, ⟨sealing.sink.store, sealing.source, sealing.scratch⟩)

def writeHeader (appending : Appending σ ρ) (offset : Nat) (sum : Checksum) :
    Checked (Except StreamError Unit × Appending σ ρ) := do
  let (reply, store) ← WritableStore.writeAllAt appending.store offset sum.header
  return (reply.mapError fun cause => .sink cause.toIo, { appending with store })

/-- Appends `count` bytes of the source to the stream of `size` logical bytes that starts at
`base`. -/
def run (appending : Appending σ ρ) (base size count : Nat) :
    Checked (Except StreamError Unit × Appending σ ρ) := do
  let offset ← Checked.add base (← Layout.encodedSize size)
  let old := Layout.offsetInChunk size
  if old = 0 then appending.addChunks offset count
  else
    -- The tail is extended and the new chunks are written before the header vouches for them.
    let header ← Checked.add base (Layout.chunkStart (Layout.chunkIndex size))
    let added := min (Layout.payloadLength - old) count
    (appending.recoverTail base size old).andThen fun _ appending =>
      (appending.extendTail offset old added).andThen fun sum appending => do
        let offset ← Checked.add offset added
        (appending.addChunks offset (count - added)).andThen fun _ appending =>
          appending.writeHeader header sum

end Appending

end SealedStream
