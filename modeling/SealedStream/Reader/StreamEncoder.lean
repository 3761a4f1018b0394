import SealedStream.Device.Source
import SealedStream.Scratch

/-!
# Encoding while reading

A stream encoder reads payloads from its source and hands out the sealed frames. A payload shorter
than a full one is the last. A read that fails hands nothing out; what had been gathered for its
frame by then is gone, and the next read starts a frame with what the source gives next.
-/

namespace SealedStream

structure StreamEncoder (ρ : Type) where
  source : ρ
  scratch : Scratch
  pending : Bytes
  finished : Bool

namespace StreamEncoder

variable {ρ : Type}

def create (source : ρ) (scratch : Scratch) : StreamEncoder ρ :=
  ⟨source, scratch, [], false⟩

/-- Hands out sealed bytes that wait, as far as there is room. -/
def hand (encoder : StreamEncoder ρ) (room : Nat) : Bytes × StreamEncoder ρ :=
  (encoder.pending.take room, { encoder with pending := encoder.pending.drop room })

variable [Source ρ]

/-- Seals the next payload and makes its frame wait. -/
def fetch (encoder : StreamEncoder ρ) : Checked (Except FinalError Unit × StreamEncoder ρ) := do
  let (gathered, source) ← Source.readFull encoder.source Layout.payloadLength
  let scratch ← encoder.scratch.fill Layout.headerLength gathered.bytes
  let encoder := { encoder with source, scratch }
  match gathered.failure with
  | some cause => return (.error cause, encoder)
  | none =>
    -- Only the end of the source cuts a payload short.
    let length := gathered.bytes.length
    let finished := encoder.finished || length < Layout.payloadLength
    if length = 0 then return (.ok (), { encoder with finished })
    else
      let (pending, scratch) ← scratch.sealFrame length
      return (.ok (), { encoder with scratch, pending, finished })

def read (encoder : StreamEncoder ρ) (room : Nat) :
    Checked (Except IoError Bytes × StreamEncoder ρ) := do
  if encoder.pending ≠ [] then
    let (bytes, encoder) := encoder.hand room
    return (.ok bytes, encoder)
  else if encoder.finished then return (.ok [], encoder)
  else
    let (reply, encoder) ← encoder.fetch
    match reply with
    | .error cause => return (.error cause.toIo, encoder)
    | .ok () =>
      let (bytes, encoder) := encoder.hand room
      return (.ok bytes, encoder)

theorem interruptions_fetch_le {encoder next : StreamEncoder ρ} {reply : Except FinalError Unit}
    (run : encoder.fetch = .ok (reply, next)) :
    Source.interruptions next.source ≤ Source.interruptions encoder.source := by
  unfold fetch at run
  obtain ⟨⟨gathered, source⟩, gathering, run⟩ := Checked.bind_eq_ok_iff.mp run
  obtain ⟨scratch, _, run⟩ := Checked.bind_eq_ok_iff.mp run
  suffices same : next.source = source by
    rw [same]
    exact Source.interruptions_gather_le gathering
  dsimp only at run
  split at run
  next => cases run; rfl
  next =>
    split at run
    next => cases run; rfl
    next =>
      obtain ⟨⟨pending, sealing⟩, _, run⟩ := Checked.bind_eq_ok_iff.mp run
      cases run
      rfl

/-- A read keeps to its room, never reports an interruption and adds none to the source. -/
theorem read_settled {encoder next : StreamEncoder ρ} {room : Nat} {reply : Except IoError Bytes}
    (run : encoder.read room = .ok (reply, next)) :
    Source.Settled room reply ∧
      Source.interruptions next.source ≤ Source.interruptions encoder.source := by
  unfold read at run
  split at run
  next =>
    cases run
    exact ⟨Source.settled_take room _, Nat.le_refl _⟩
  next =>
    split at run
    next =>
      cases run
      exact ⟨Nat.zero_le room, Nat.le_refl _⟩
    next =>
      obtain ⟨⟨answer, middle⟩, fetching, run⟩ := Checked.bind_eq_ok_iff.mp run
      have bound := interruptions_fetch_le fetching
      cases answer with
      | error cause =>
        cases run
        exact ⟨cause.kind_ne, bound⟩
      | ok _ =>
        cases run
        exact ⟨Source.settled_take room _, bound⟩

instance : Source (StreamEncoder ρ) where
  read := read
  interruptions encoder := Source.interruptions encoder.source
  length_le_room run := (read_settled run).1
  interruptions_le run := (read_settled run).2
  interruptions_lt run interrupted := absurd interrupted (read_settled run).1

end StreamEncoder

end SealedStream
