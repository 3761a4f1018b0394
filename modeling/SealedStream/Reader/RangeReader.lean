import SealedStream.Device.Span
import SealedStream.Reader.SizedDecoder
import SealedStream.Reader.Window

/-!
# Reading a logical range of a stored stream

A range reader decodes a stored stream from the chunk that holds the start of the range. A range
that starts a chunk and reaches the end of the stream is all that the decoder gives; any other is a
window on it.
-/

namespace SealedStream

/-- A decoder over the stored stream of `size` logical bytes, from the chunk that holds the logical
offset `start` on. -/
def SizedDecoder.ofStore {σ : Type} (store : σ) (base start size : Nat) (scratch : Scratch) :
    Checked (SizedDecoder (Span σ)) := do
  let before := Layout.chunkStart (Layout.chunkIndex start)
  let extent ← Checked.sub (← Layout.encodedSize size) before
  let offset ← Checked.add base before
  return .create (.create store offset extent) (← Layout.logicalSize extent) scratch

inductive RangeReader (σ : Type) where
  | whole (decoder : SizedDecoder (Span σ))
  | windowed (window : Window (SizedDecoder (Span σ)))

namespace RangeReader

variable {σ : Type}

/-- A reader of the logical bytes from `start` up to `stop`, or up to the end of the stream if that
comes first. -/
def create (store : σ) (base start stop size : Nat) (scratch : Scratch) :
    Checked (Except StreamError (RangeReader σ)) := do
  if stop < start ∨ size < start then
    return .error (.fault (.invalidRange start stop size))
  else
    let decoder ← SizedDecoder.ofStore store base start size scratch
    -- The decoder starts at a chunk, the range perhaps inside it.
    let skip := Layout.offsetInChunk start
    if skip = 0 ∧ size ≤ stop then return .ok (.whole decoder)
    else return .ok (.windowed (.create decoder skip (stop - start)))

def decoder : RangeReader σ → SizedDecoder (Span σ)
  | whole decoder => decoder
  | windowed window => window.inner

/-- The store that is read from, as it is by now. -/
def store (reader : RangeReader σ) : σ :=
  reader.decoder.source.store

variable [ReadableStore σ]

def read (reader : RangeReader σ) (room : Nat) :
    Checked (Except IoError Bytes × RangeReader σ) :=
  match reader with
  | whole decoder => do
    let (reply, decoder) ← Source.read decoder room
    return (reply, whole decoder)
  | windowed window => do
    let (reply, window) ← Source.read window room
    return (reply, windowed window)

def interruptions : RangeReader σ → Nat
  | whole decoder => Source.interruptions decoder
  | windowed window => Source.interruptions window

/-- A read of a range is a read of the decoder or of the window behind it. -/
theorem read_eq_ok {reader next : RangeReader σ} {room : Nat} {reply : Except IoError Bytes}
    (run : reader.read room = .ok (reply, next)) :
    (∃ before after, reader = whole before ∧ next = whole after ∧
        Source.read before room = .ok (reply, after)) ∨
      ∃ before after, reader = windowed before ∧ next = windowed after ∧
        Source.read before room = .ok (reply, after) := by
  cases reader with
  | whole before =>
    obtain ⟨⟨answer, after⟩, reading, run⟩ := Checked.bind_eq_ok_iff.mp run
    cases run
    exact .inl ⟨before, after, rfl, rfl, reading⟩
  | windowed before =>
    obtain ⟨⟨answer, after⟩, reading, run⟩ := Checked.bind_eq_ok_iff.mp run
    cases run
    exact .inr ⟨before, after, rfl, rfl, reading⟩

instance : Source (RangeReader σ) where
  read := read
  interruptions := interruptions
  length_le_room run := by
    rcases read_eq_ok run with ⟨_, _, rfl, rfl, reading⟩ | ⟨_, _, rfl, rfl, reading⟩ <;>
      exact Source.length_le_room reading
  interruptions_le run := by
    rcases read_eq_ok run with ⟨_, _, rfl, rfl, reading⟩ | ⟨_, _, rfl, rfl, reading⟩ <;>
      exact Source.interruptions_le reading
  interruptions_lt run := by
    rcases read_eq_ok run with ⟨_, _, rfl, rfl, reading⟩ | ⟨_, _, rfl, rfl, reading⟩ <;>
      exact Source.interruptions_lt reading

end RangeReader

end SealedStream
