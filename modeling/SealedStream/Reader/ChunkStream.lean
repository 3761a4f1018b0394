import SealedStream.Chunk
import SealedStream.Reader.Frames

/-!
# A stream of chunks

A chunk stream gives out the chunks of an encoded source one at a time, each with its logical
offset. It ends with the source, or after the first error.
-/

namespace SealedStream

structure ChunkStream (ρ : Type) where
  frames : Frames ρ
  /-- The logical offset of the next chunk. -/
  offset : Nat
  finished : Bool

namespace ChunkStream

variable {ρ : Type}

def create (source : ρ) : ChunkStream ρ :=
  ⟨⟨source, .zero⟩, 0, false⟩

/-- The next chunk or the error instead of it; nothing after the end. -/
def next [Source ρ] (stream : ChunkStream ρ) :
    Checked (Option (Except StreamError Chunk) × ChunkStream ρ) := do
  if stream.finished then return (none, stream)
  else
    let (reply, frames) ← stream.frames.next
    match reply with
    | .ok (some (checksum, data)) =>
      let chunk : Chunk := { data, offset := stream.offset, checksum }
      return (some (.ok chunk), { stream with frames, offset := (← chunk.stop) })
    | .ok none => return (none, { stream with frames, finished := true })
    | .error error =>
      return (some (.error error.toStreamError), { stream with frames, finished := true })

end ChunkStream

end SealedStream
