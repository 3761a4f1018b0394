import SealedStream.Device.Store
import SealedStream.Frame
import SealedStream.Scratch

/-!
# Copying a logical range of a stored stream

A range is copied from a store to a sink chunk by chunk. Each chunk is read whole and verified
before any part of it is written. The size of the stream is not needed: the copy fails with an
unexpected end of file when the range reaches past it.
-/

namespace SealedStream

structure RangeCopy (σ κ : Type) where
  store : σ
  sink : κ
  scratch : Scratch

namespace RangeCopy

variable {σ κ : Type} [ReadableStore σ] [Sink κ]

/-- Copies the payload bytes of one chunk from `start` up to `stop`. -/
def part (copy : RangeCopy σ κ) (base index start stop : Nat) :
    Checked (Except StreamError Unit × RangeCopy σ κ) := do
  let offset ← Checked.add base (Layout.chunkStart index)
  let (gathered, store) ← ReadableStore.readFullAt copy.store offset Layout.chunkLength
  let scratch ← copy.scratch.fill 0 gathered.bytes
  let copy := { copy with store, scratch }
  match gathered.failure with
  | some cause => return (.error (.source cause.toIo), copy)
  | none =>
    let length := gathered.bytes.length
    if length = 0 then return (.error (.source (.bare .unexpectedEof)), copy)
    else
      match Frame.verify (← scratch.slice 0 length) with
      | .error found => return (.error (.fault (.damage found)), copy)
      | .ok _ =>
        -- The chunk has to hold the whole part that is asked for.
        if length < Layout.headerLength + stop then
          return (.error (.source (.bare .unexpectedEof)), copy)
        else
          let bytes ← scratch.slice (Layout.headerLength + start) (Layout.headerLength + stop)
          let (reply, sink) ← Sink.writeAll copy.sink bytes
          return (reply.mapError fun cause => .sink cause.toIo, { copy with sink })

/-- Copies the chunks from `index` up to but not including `last` to their ends, the first of them
from `start` on. -/
def chunks (copy : RangeCopy σ κ) (base index last start : Nat) :
    Checked (Except StreamError Unit × RangeCopy σ κ) :=
  if index < last then
    (copy.part base index start Layout.payloadLength).andThen fun _ copy =>
      copy.chunks base (index + 1) last 0
  else return (.ok (), copy)
termination_by last - index

/-- Copies the logical bytes from `start` up to `stop`. -/
def run (copy : RangeCopy σ κ) (base start stop : Nat) :
    Checked (Except StreamError Unit × RangeCopy σ κ) :=
  if stop ≤ start then return (.ok (), copy)
  else
    let first := Layout.chunkIndex start
    let last := Layout.chunkIndex stop
    let rest := Layout.offsetInChunk stop
    if first = last then copy.part base first (Layout.offsetInChunk start) rest
    else
      (copy.chunks base first last (Layout.offsetInChunk start)).andThen fun _ copy =>
        if 0 < rest then copy.part base last 0 rest else return (.ok (), copy)

end RangeCopy

end SealedStream
