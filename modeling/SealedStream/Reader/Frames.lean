import SealedStream.Device.Source
import SealedStream.Frame
import SealedStream.Scratch

/-!
# Reading frame after frame

A source of unknown length is cut into frames of full length; a shorter one is the last. `next`
reads and verifies one frame and gives out its payload, or nothing if the source has ended.
-/

namespace SealedStream

structure Frames (ρ : Type) where
  source : ρ
  scratch : Scratch

namespace Frames

variable {ρ : Type} [Source ρ]

def next (frames : Frames ρ) :
    Checked (Except DecodeError (Option (Checksum × Bytes)) × Frames ρ) := do
  let (gathered, source) ← Source.readFull frames.source Layout.chunkLength
  let scratch ← frames.scratch.fill 0 gathered.bytes
  let frames : Frames ρ := { source, scratch }
  match gathered.failure with
  | some cause => return (.error (.source cause), frames)
  | none =>
    let length := gathered.bytes.length
    if length = 0 then return (.ok none, frames)
    else
      match Frame.verify (← scratch.slice 0 length) with
      | .error found => return (.error (.damage found), frames)
      | .ok sum =>
        let payload ← scratch.slice Layout.headerLength length
        return (.ok (some (sum, payload)), frames)

theorem interruptions_next_le {frames last : Frames ρ}
    {reply : Except DecodeError (Option (Checksum × Bytes))}
    (run : frames.next = .ok (reply, last)) :
    Source.interruptions last.source ≤ Source.interruptions frames.source := by
  unfold next at run
  obtain ⟨⟨gathered, source⟩, gathering, run⟩ := Checked.bind_eq_ok_iff.mp run
  obtain ⟨scratch, _, run⟩ := Checked.bind_eq_ok_iff.mp run
  suffices same : last.source = source by
    rw [same]
    exact Source.interruptions_gather_le gathering
  dsimp only at run
  split at run
  next => cases run; rfl
  next =>
    split at run
    next => cases run; rfl
    next =>
      obtain ⟨frame, _, run⟩ := Checked.bind_eq_ok_iff.mp run
      split at run
      next => cases run; rfl
      next =>
        obtain ⟨payload, _, run⟩ := Checked.bind_eq_ok_iff.mp run
        cases run
        rfl

end Frames

end SealedStream
