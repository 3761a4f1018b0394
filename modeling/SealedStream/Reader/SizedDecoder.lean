import SealedStream.Device.Source
import SealedStream.Frame
import SealedStream.Scratch

/-!
# Decoding a stream of known size

A sized decoder reads one frame at a time from its source, verifies it, and hands out its payload,
up to the declared number of logical bytes. `remaining` counts the bytes that no verified frame has
brought yet. The first error ends it: after the bytes already verified, every read reports what is
remembered of that error.
-/

namespace SealedStream

structure SizedDecoder (ρ : Type) where
  source : ρ
  scratch : Scratch
  pending : Bytes
  remaining : Nat
  sticky : Option Sticky

namespace SizedDecoder

variable {ρ : Type}

def create (source : ρ) (size : Nat) (scratch : Scratch) : SizedDecoder ρ :=
  ⟨source, scratch, [], size, none⟩

/-- Hands out verified bytes that wait, as far as there is room. -/
def hand (decoder : SizedDecoder ρ) (room : Nat) : Bytes × SizedDecoder ρ :=
  (decoder.pending.take room, { decoder with pending := decoder.pending.drop room })

variable [Source ρ]

/-- Reads and verifies the next frame. A frame is as long as the remaining size and a header allow;
what the source gives beyond the remaining size is verified with it but not handed out. -/
def load (decoder : SizedDecoder ρ) : Checked (Except DecodeError Nat × SizedDecoder ρ) := do
  let need := min (decoder.remaining + Layout.headerLength) Layout.chunkLength
  let (gathered, source) ← Source.gather decoder.source need Layout.chunkLength
  let scratch ← decoder.scratch.fill 0 gathered.bytes
  let decoder := { decoder with source, scratch }
  match gathered.outcome need .unexpectedEof with
  | .error cause => return (.error (.source cause), decoder)
  | .ok () =>
    -- The source may have given more than was needed; all of it is one frame.
    let length := gathered.bytes.length
    match Frame.verify (← scratch.slice 0 length) with
    | .error found => return (.error (.damage found), decoder)
    | .ok _ =>
      let count := min (← Checked.sub length Layout.headerLength) decoder.remaining
      let pending ← scratch.slice Layout.headerLength (Layout.headerLength + count)
      let remaining ← Checked.sub decoder.remaining count
      return (.ok count, { decoder with pending, remaining })

/-- Loads the next frame, and remembers the error if that fails. -/
def fetch (decoder : SizedDecoder ρ) : Checked (Except DecodeError Nat × SizedDecoder ρ) := do
  let (reply, decoder) ← decoder.load
  match reply with
  | .ok count => return (.ok count, decoder)
  | .error error => return (.error error, { decoder with sticky := some (.ofError error) })

def read (decoder : SizedDecoder ρ) (room : Nat) :
    Checked (Except IoError Bytes × SizedDecoder ρ) := do
  if decoder.pending ≠ [] then
    let (bytes, decoder) := decoder.hand room
    return (.ok bytes, decoder)
  else
    match decoder.sticky with
    | some sticky => return (.error sticky.toIo, decoder)
    | none =>
      if decoder.remaining = 0 then return (.ok [], decoder)
      else
        let (reply, decoder) ← decoder.fetch
        match reply with
        | .error error => return (.error error.toIo, decoder)
        | .ok _ =>
          let (bytes, decoder) := decoder.hand room
          return (.ok bytes, decoder)

theorem interruptions_load_le {decoder next : SizedDecoder ρ} {reply : Except DecodeError Nat}
    (run : decoder.load = .ok (reply, next)) :
    Source.interruptions next.source ≤ Source.interruptions decoder.source := by
  unfold load at run
  obtain ⟨⟨gathered, source⟩, gathering, run⟩ := Checked.bind_eq_ok_iff.mp run
  obtain ⟨scratch, _, run⟩ := Checked.bind_eq_ok_iff.mp run
  suffices same : next.source = source by
    rw [same]
    exact Source.interruptions_gather_le gathering
  dsimp only at run
  split at run
  next => cases run; rfl
  next =>
    obtain ⟨frame, _, run⟩ := Checked.bind_eq_ok_iff.mp run
    split at run
    next => cases run; rfl
    next =>
      obtain ⟨payload, _, run⟩ := Checked.bind_eq_ok_iff.mp run
      obtain ⟨pending, _, run⟩ := Checked.bind_eq_ok_iff.mp run
      obtain ⟨remaining, _, run⟩ := Checked.bind_eq_ok_iff.mp run
      cases run
      rfl

theorem interruptions_fetch_le {decoder next : SizedDecoder ρ} {reply : Except DecodeError Nat}
    (run : decoder.fetch = .ok (reply, next)) :
    Source.interruptions next.source ≤ Source.interruptions decoder.source := by
  unfold fetch at run
  obtain ⟨⟨answer, middle⟩, loading, run⟩ := Checked.bind_eq_ok_iff.mp run
  have bound := interruptions_load_le loading
  cases answer <;> cases run <;> exact bound

/-- A read keeps to its room, never reports an interruption and adds none to the source. -/
theorem read_settled {decoder next : SizedDecoder ρ} {room : Nat} {reply : Except IoError Bytes}
    (run : decoder.read room = .ok (reply, next)) :
    Source.Settled room reply ∧
      Source.interruptions next.source ≤ Source.interruptions decoder.source := by
  unfold read at run
  split at run
  next =>
    cases run
    exact ⟨Source.settled_take room _, Nat.le_refl _⟩
  next =>
    split at run
    next sticky _ =>
      cases run
      exact ⟨sticky.kind_ne, Nat.le_refl _⟩
    next =>
      split at run
      next =>
        cases run
        exact ⟨Nat.zero_le room, Nat.le_refl _⟩
      next =>
        obtain ⟨⟨answer, middle⟩, fetching, run⟩ := Checked.bind_eq_ok_iff.mp run
        have bound := interruptions_fetch_le fetching
        cases answer with
        | error failure =>
          cases run
          exact ⟨failure.kind_ne, bound⟩
        | ok count =>
          cases run
          exact ⟨Source.settled_take room _, bound⟩

instance : Source (SizedDecoder ρ) where
  read := read
  interruptions decoder := Source.interruptions decoder.source
  length_le_room run := (read_settled run).1
  interruptions_le run := (read_settled run).2
  interruptions_lt run interrupted := absurd interrupted (read_settled run).1

end SizedDecoder

end SealedStream
