import SealedStream.Device.Sink
import SealedStream.Device.Source
import SealedStream.Error.Basic
import SealedStream.Scratch

/-!
# Encoding from a source into a sink

A known number of bytes goes from a source, sealed chunk by chunk, into a sink. A chunk is written
only when its payload has been read completely, and the payload of the next is read only when the
chunk has been written completely.
-/

namespace SealedStream

structure Sealing (ρ κ : Type) where
  source : ρ
  sink : κ
  scratch : Scratch

namespace Sealing

variable {ρ κ : Type} [Source ρ] [Sink κ]

/-- Seals one chunk with a payload of `length` bytes. -/
def chunk (sealing : Sealing ρ κ) (length : Nat) :
    Checked (Except StreamError Unit × Sealing ρ κ) := do
  let (gathered, source) ← Source.readFull sealing.source length
  let scratch ← sealing.scratch.fill Layout.headerLength gathered.bytes
  match gathered.outcome length .unfilledBuffer with
  | .error cause => return (.error (.source cause.toIo), { sealing with source, scratch })
  | .ok () =>
    let (frame, scratch) ← scratch.sealFrame length
    let (reply, sink) ← Sink.writeAll sealing.sink frame
    return (reply.mapError fun cause => .sink cause.toIo, { source, sink, scratch })

/-- Seals `size` bytes. -/
def run (sealing : Sealing ρ κ) (size : Nat) :
    Checked (Except StreamError Unit × Sealing ρ κ) :=
  if size = 0 then return (.ok (), sealing)
  else
    let length := min size Layout.payloadLength
    (sealing.chunk length).andThen fun _ sealing => sealing.run (size - length)
termination_by size
decreasing_by
  simp only [Layout.payloadLength]
  omega

end Sealing

end SealedStream
