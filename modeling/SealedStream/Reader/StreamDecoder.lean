import SealedStream.Reader.Frames

/-!
# Decoding a stream of unknown size

A stream decoder hands out the payloads of frame after frame until its source ends. The first error
ends it: after the bytes already verified, every read reports what is remembered of that error.
-/

namespace SealedStream

structure StreamDecoder (ρ : Type) where
  frames : Frames ρ
  pending : Bytes
  finished : Bool
  sticky : Option Sticky

namespace StreamDecoder

variable {ρ : Type}

def create (source : ρ) (scratch : Scratch) : StreamDecoder ρ :=
  ⟨⟨source, scratch⟩, [], false, none⟩

/-- Hands out verified bytes that wait, as far as there is room. -/
def hand (decoder : StreamDecoder ρ) (room : Nat) : Bytes × StreamDecoder ρ :=
  (decoder.pending.take room, { decoder with pending := decoder.pending.drop room })

variable [Source ρ]

/-- Makes the next frame's payload wait, or notes the end or the error. -/
def fetch (decoder : StreamDecoder ρ) : Checked (Except DecodeError Unit × StreamDecoder ρ) := do
  let (reply, frames) ← decoder.frames.next
  let decoder := { decoder with frames }
  match reply with
  | .ok (some (_, pending)) => return (.ok (), { decoder with pending })
  | .ok none => return (.ok (), { decoder with finished := true })
  | .error error => return (.error error, { decoder with sticky := some (.ofError error) })

def read (decoder : StreamDecoder ρ) (room : Nat) :
    Checked (Except IoError Bytes × StreamDecoder ρ) := do
  if decoder.pending ≠ [] then
    let (bytes, decoder) := decoder.hand room
    return (.ok bytes, decoder)
  else
    match decoder.sticky with
    | some sticky => return (.error sticky.toIo, decoder)
    | none =>
      if decoder.finished then return (.ok [], decoder)
      else
        let (reply, decoder) ← decoder.fetch
        match reply with
        | .error error => return (.error error.toIo, decoder)
        | .ok () =>
          let (bytes, decoder) := decoder.hand room
          return (.ok bytes, decoder)

theorem interruptions_fetch_le {decoder next : StreamDecoder ρ} {reply : Except DecodeError Unit}
    (run : decoder.fetch = .ok (reply, next)) :
    Source.interruptions next.frames.source ≤ Source.interruptions decoder.frames.source := by
  unfold fetch at run
  obtain ⟨⟨answer, frames⟩, step, run⟩ := Checked.bind_eq_ok_iff.mp run
  have bound := Frames.interruptions_next_le step
  dsimp only at run
  split at run <;> cases run <;> exact bound

/-- A read keeps to its room, never reports an interruption and adds none to the source. -/
theorem read_settled {decoder next : StreamDecoder ρ} {room : Nat} {reply : Except IoError Bytes}
    (run : decoder.read room = .ok (reply, next)) :
    Source.Settled room reply ∧
      Source.interruptions next.frames.source ≤ Source.interruptions decoder.frames.source := by
  unfold read at run
  split at run
  next =>
    cases run
    exact ⟨Source.settled_take room _, Nat.le_refl _⟩
  next =>
    split at run
    next sticky _ =>
      cases run
      exact ⟨sticky.kind_ne, Nat.le_refl _⟩
    next =>
      split at run
      next =>
        cases run
        exact ⟨Nat.zero_le room, Nat.le_refl _⟩
      next =>
        obtain ⟨⟨answer, middle⟩, fetching, run⟩ := Checked.bind_eq_ok_iff.mp run
        have bound := interruptions_fetch_le fetching
        cases answer with
        | error failure =>
          cases run
          exact ⟨failure.kind_ne, bound⟩
        | ok _ =>
          cases run
          exact ⟨Source.settled_take room _, bound⟩

instance : Source (StreamDecoder ρ) where
  read := read
  interruptions decoder := Source.interruptions decoder.frames.source
  length_le_room run := (read_settled run).1
  interruptions_le run := (read_settled run).2
  interruptions_lt run interrupted := absurd interrupted (read_settled run).1

end StreamDecoder

end SealedStream
