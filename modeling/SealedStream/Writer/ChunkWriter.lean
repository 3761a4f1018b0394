import SealedStream.Device.Sink
import SealedStream.Scratch

/-!
# Encoding while writing

A chunk writer gathers what is written to it into payloads and writes each full chunk to its sink.
`finish` writes the last chunk, which may be shorter. Whatever part of a chunk the sink has taken
before it failed is not offered again: the next call goes on behind it. A write that fills a chunk
counts as done even if the chunk then gets stuck.
-/

namespace SealedStream

structure ChunkWriter (κ : Type) where
  sink : κ
  scratch : Scratch
  /-- The checksum and the number of the payload bytes in the scratch buffer. -/
  hasher : Hasher
  /-- The bytes of the chunk in the scratch buffer that the sink has taken. -/
  emitted : Nat

namespace ChunkWriter

variable {κ : Type}

def create (sink : κ) (scratch : Scratch) : ChunkWriter κ :=
  ⟨sink, scratch, .empty, 0⟩

/-- The number of payload bytes that wait for their chunk to be written. -/
def buffered (writer : ChunkWriter κ) : Nat :=
  writer.hasher.length

/-- Adds bytes to the payload. -/
def buffer (writer : ChunkWriter κ) (part : Bytes) : Checked (ChunkWriter κ) := do
  let scratch ← writer.scratch.fill (Layout.headerLength + writer.buffered) part
  return { writer with scratch, hasher := writer.hasher.update part }

/-- The bytes cut so that each part fills the payload at hand or fits a new one. -/
def parts (writer : ChunkWriter κ) (bytes : Bytes) : List Bytes :=
  if bytes = [] then []
  else
    let free := Layout.payloadLength - writer.buffered
    bytes.take free :: Bytes.blocks Layout.payloadLength (bytes.drop free)

/-- The scratch buffer with the header of the payload at hand, if the chunk is new. -/
def headed (writer : ChunkWriter κ) : Checked Scratch :=
  if writer.emitted = 0 then writer.scratch.fill 0 (Checksum.mk writer.hasher.digest).header
  else return writer.scratch

theorem sink_of_buffer {writer next : ChunkWriter κ} {part : Bytes}
    (run : writer.buffer part = .ok next) : next.sink = writer.sink := by
  unfold buffer at run
  obtain ⟨scratch, _, run⟩ := Checked.bind_eq_ok_iff.mp run
  cases run
  rfl

theorem flatten_parts (writer : ChunkWriter κ) (bytes : Bytes) :
    (writer.parts bytes).flatten = bytes := by
  unfold parts
  split
  next empty => rw [empty]; rfl
  next => rw [List.flatten_cons, Bytes.blocks_flatten, List.take_append_drop]

variable [Sink κ]

/-- Writes the payload at hand as a chunk, from where an earlier attempt got stuck. -/
def emit (writer : ChunkWriter κ) : Checked (Except FinalError Unit × ChunkWriter κ) := do
  let scratch ← writer.headed
  let rest ← scratch.slice writer.emitted (Layout.headerLength + writer.buffered)
  let (pushed, sink) ← Sink.push writer.sink rest
  match pushed.outcome .writeZero with
  | .ok () => return (.ok (), { sink, scratch, hasher := .empty, emitted := 0 })
  | .error cause =>
    return (.error cause, { writer with sink, scratch, emitted := writer.emitted + pushed.taken })

/-- Writes the payload at hand if it is due. -/
def emitIf (writer : ChunkWriter κ) (due : Bool) :
    Checked (Except FinalError Unit × ChunkWriter κ) :=
  if due then writer.emit else return (.ok (), writer)

/-- Takes part after part, and writes each chunk that is full. It ends early, and without an error,
if a chunk gets stuck. -/
def absorb (writer : ChunkWriter κ) : List Bytes → Checked (Nat × ChunkWriter κ)
  | [] => return (0, writer)
  | part :: rest => do
    let writer ← writer.buffer part
    if writer.buffered = Layout.payloadLength then
      let (reply, writer) ← writer.emit
      match reply with
      -- The bytes are in the buffer; the next call finds the chunk still full.
      | .error _ => return (part.length, writer)
      | .ok () =>
        let (taken, writer) ← writer.absorb rest
        return (part.length + taken, writer)
    else
      let (taken, writer) ← writer.absorb rest
      return (part.length + taken, writer)

/-- A full chunk that got stuck in an earlier call goes first. -/
def write (writer : ChunkWriter κ) (bytes : Bytes) :
    Checked (Except IoError Nat × ChunkWriter κ) := do
  let (reply, writer) ← writer.emitIf (writer.buffered = Layout.payloadLength)
  match reply with
  | .error cause => return (.error cause.toIo, writer)
  | .ok () =>
    let (taken, writer) ← writer.absorb (writer.parts bytes)
    return (.ok taken, writer)

/-- Flushes the sink. A chunk is not cut short for it. -/
def flush (writer : ChunkWriter κ) : Except IoError Unit × ChunkWriter κ :=
  let (reply, sink) := Sink.flush writer.sink
  (reply, { writer with sink })

/-- Writes what is left as the last chunk and flushes the sink. -/
def finish (writer : ChunkWriter κ) : Checked (Except IoError Unit × ChunkWriter κ) := do
  let (reply, writer) ← writer.emitIf (0 < writer.buffered)
  match reply with
  | .error cause => return (.error cause.toIo, writer)
  | .ok () => return writer.flush

theorem interruptions_emit_le {writer next : ChunkWriter κ} {reply : Except FinalError Unit}
    (run : writer.emit = .ok (reply, next)) :
    Sink.interruptions next.sink ≤ Sink.interruptions writer.sink := by
  unfold emit at run
  obtain ⟨scratch, _, run⟩ := Checked.bind_eq_ok_iff.mp run
  obtain ⟨rest, _, run⟩ := Checked.bind_eq_ok_iff.mp run
  obtain ⟨⟨pushed, sink⟩, pushing, run⟩ := Checked.bind_eq_ok_iff.mp run
  have bound := Sink.interruptions_push_le pushing
  dsimp only at run
  split at run <;> cases run <;> exact bound

theorem interruptions_emitIf_le {writer next : ChunkWriter κ} {due : Bool}
    {reply : Except FinalError Unit} (run : writer.emitIf due = .ok (reply, next)) :
    Sink.interruptions next.sink ≤ Sink.interruptions writer.sink := by
  cases due with
  | true => exact interruptions_emit_le run
  | false => cases run; exact Nat.le_refl _

/-- What is taken is no more than there is, and no interruption is added. -/
theorem absorb_bounds {writer next : ChunkWriter κ} {list : List Bytes} {taken : Nat}
    (run : writer.absorb list = .ok (taken, next)) :
    taken ≤ list.flatten.length ∧
      Sink.interruptions next.sink ≤ Sink.interruptions writer.sink := by
  induction list generalizing writer taken with
  | nil =>
    cases run
    exact ⟨Nat.zero_le _, Nat.le_refl _⟩
  | cons part rest ih =>
    obtain ⟨filled, filling, run⟩ := Checked.bind_eq_ok_iff.mp run
    have same := sink_of_buffer filling
    rw [List.flatten_cons, List.length_append]
    split at run
    next =>
      obtain ⟨⟨reply, emptied⟩, emitting, run⟩ := Checked.bind_eq_ok_iff.mp run
      have bound := interruptions_emit_le emitting
      rw [same] at bound
      cases reply with
      | error cause =>
        cases run
        exact ⟨Nat.le_add_right _ _, bound⟩
      | ok _ =>
        obtain ⟨⟨count, last⟩, absorbing, run⟩ := Checked.bind_eq_ok_iff.mp run
        cases run
        have tail := ih absorbing
        exact ⟨Nat.add_le_add_left tail.1 _, Nat.le_trans tail.2 bound⟩
    next =>
      obtain ⟨⟨count, last⟩, absorbing, run⟩ := Checked.bind_eq_ok_iff.mp run
      cases run
      have tail := ih absorbing
      rw [same] at tail
      exact ⟨Nat.add_le_add_left tail.1 _, tail.2⟩

/-- A write takes no more than it is offered, never reports an interruption and adds none to the
sink. -/
theorem write_settled {writer next : ChunkWriter κ} {bytes : Bytes} {reply : Except IoError Nat}
    (run : writer.write bytes = .ok (reply, next)) :
    (match reply with
      | .ok taken => taken ≤ bytes.length
      | .error error => error.kind ≠ .interrupted) ∧
      Sink.interruptions next.sink ≤ Sink.interruptions writer.sink := by
  unfold write at run
  obtain ⟨⟨answer, ready⟩, emitting, run⟩ := Checked.bind_eq_ok_iff.mp run
  have bound := interruptions_emitIf_le emitting
  cases answer with
  | error cause =>
    cases run
    exact ⟨cause.kind_ne, bound⟩
  | ok _ =>
    obtain ⟨⟨taken, last⟩, absorbing, run⟩ := Checked.bind_eq_ok_iff.mp run
    cases run
    have all := absorb_bounds absorbing
    rw [flatten_parts] at all
    exact ⟨all.1, Nat.le_trans all.2 bound⟩

instance : Sink (ChunkWriter κ) where
  write := write
  flush := flush
  interruptions writer := Sink.interruptions writer.sink
  taken_le_length run := (write_settled run).1
  interruptions_le run := (write_settled run).2
  interruptions_lt run interrupted := absurd interrupted (write_settled run).1

end ChunkWriter

end SealedStream
