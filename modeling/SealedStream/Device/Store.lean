import SealedStream.Device.Sink
import SealedStream.Device.Source

/-!
# Random-access stores

A store is read and written at offsets. The loops over a store are those over a source or a sink:
a `Probe` is the store as a source that starts at an offset, a `Cursor` the store as a sink that
does. The cursor checks its offset after each write, the probe before each read.
-/

namespace SealedStream

/-- One call of `readAt` hands out at most `room` bytes from the offset on, and none past the end. -/
class ReadableStore (σ : Type) where
  readAt : σ → (offset room : Nat) → Checked (Except IoError Bytes × σ)
  readInterruptions : σ → Nat
  length_le_room {store next : σ} {offset room : Nat} {bytes : Bytes} :
    readAt store offset room = .ok (.ok bytes, next) → bytes.length ≤ room
  readInterruptions_le {store next : σ} {offset room : Nat} {reply : Except IoError Bytes} :
    readAt store offset room = .ok (reply, next) → readInterruptions next ≤ readInterruptions store
  readInterruptions_lt {store next : σ} {offset room : Nat} {error : IoError} :
    readAt store offset room = .ok (.error error, next) → error.kind = .interrupted →
      readInterruptions next < readInterruptions store

/-- One call of `writeAt` stores a front part of the bytes, and tells how long a part. -/
class WritableStore (σ : Type) where
  writeAt : σ → (offset : Nat) → Bytes → Checked (Except IoError Nat × σ)
  writeInterruptions : σ → Nat
  taken_le_length {store next : σ} {offset : Nat} {bytes : Bytes} {taken : Nat} :
    writeAt store offset bytes = .ok (.ok taken, next) → taken ≤ bytes.length
  writeInterruptions_le {store next : σ} {offset : Nat} {bytes : Bytes}
      {reply : Except IoError Nat} :
    writeAt store offset bytes = .ok (reply, next) →
      writeInterruptions next ≤ writeInterruptions store
  writeInterruptions_lt {store next : σ} {offset : Nat} {bytes : Bytes} {error : IoError} :
    writeAt store offset bytes = .ok (.error error, next) → error.kind = .interrupted →
      writeInterruptions next < writeInterruptions store

/-- Reading on from an offset of a store. -/
structure Probe (σ : Type) where
  store : σ
  start : Nat
  taken : Nat

/-- Writing on from an offset of a store. -/
structure Cursor (σ : Type) where
  store : σ
  offset : Nat

namespace Probe

variable {σ : Type} [ReadableStore σ]

def read (probe : Probe σ) (room : Nat) : Checked (Except IoError Bytes × Probe σ) := do
  -- Checked only when there is something left to read.
  let offset ← Checked.add probe.start probe.taken
  let (reply, store) ← ReadableStore.readAt probe.store offset room
  match reply with
  | .error error => return (.error error, { probe with store })
  | .ok bytes => return (.ok bytes, { probe with store, taken := probe.taken + bytes.length })

theorem readAt_of_read {probe next : Probe σ} {room : Nat} {reply : Except IoError Bytes}
    (call : probe.read room = .ok (reply, next)) :
    ∃ offset, ReadableStore.readAt probe.store offset room = .ok (reply, next.store) := by
  unfold read at call
  cases place : Checked.add probe.start probe.taken with
  | error => rw [place] at call; cases call
  | ok offset =>
    refine ⟨offset, ?_⟩
    cases inner : ReadableStore.readAt probe.store offset room with
    | error => simp [place, inner, bind, Except.bind] at call
    | ok result =>
      obtain ⟨answer, store⟩ := result
      cases answer <;> simp [place, inner, bind, Except.bind, pure, Except.pure] at call <;>
        obtain ⟨rfl, rfl⟩ := call <;> rfl

instance : Source (Probe σ) where
  read := read
  interruptions probe := ReadableStore.readInterruptions probe.store
  length_le_room call :=
    let ⟨_, inner⟩ := readAt_of_read call
    ReadableStore.length_le_room inner
  interruptions_le call :=
    let ⟨_, inner⟩ := readAt_of_read call
    ReadableStore.readInterruptions_le inner
  interruptions_lt call :=
    let ⟨_, inner⟩ := readAt_of_read call
    ReadableStore.readInterruptions_lt inner

end Probe

/-- Reads from an offset until `room` bytes have come or the store ends. -/
def ReadableStore.readFullAt {σ : Type} [ReadableStore σ] (store : σ) (offset room : Nat) :
    Checked (Gathered × σ) := do
  let (gathered, probe) ← Source.readFull (⟨store, offset, 0⟩ : Probe σ) room
  return (gathered, probe.store)

namespace Cursor

variable {σ : Type} [WritableStore σ]

def write (cursor : Cursor σ) (bytes : Bytes) : Checked (Except IoError Nat × Cursor σ) := do
  let (reply, store) ← WritableStore.writeAt cursor.store cursor.offset bytes
  match reply with
  | .error error => return (.error error, { cursor with store })
  | .ok taken =>
    let offset ← Checked.add cursor.offset taken
    return (.ok taken, { store, offset })

theorem writeAt_of_write {cursor next : Cursor σ} {bytes : Bytes} {reply : Except IoError Nat}
    (call : cursor.write bytes = .ok (reply, next)) :
    WritableStore.writeAt cursor.store cursor.offset bytes = .ok (reply, next.store) := by
  unfold write at call
  cases inner : WritableStore.writeAt cursor.store cursor.offset bytes with
  | error => rw [inner] at call; cases call
  | ok result =>
    obtain ⟨answer, store⟩ := result
    cases answer with
    | error => simp [inner, bind, Except.bind, pure, Except.pure] at call; simp [← call]
    | ok taken =>
      cases place : Checked.add cursor.offset taken with
      | error => simp [inner, place, bind, Except.bind] at call
      | ok offset => simp [inner, place, bind, Except.bind, pure, Except.pure] at call; simp [← call]

instance : Sink (Cursor σ) where
  write := write
  flush cursor := (.ok (), cursor)
  interruptions cursor := WritableStore.writeInterruptions cursor.store
  taken_le_length call := WritableStore.taken_le_length (writeAt_of_write call)
  interruptions_le call := WritableStore.writeInterruptions_le (writeAt_of_write call)
  interruptions_lt call := WritableStore.writeInterruptions_lt (writeAt_of_write call)

end Cursor

/-- Stores all bytes from an offset on, or fails. -/
def WritableStore.writeAllAt {σ : Type} [WritableStore σ] (store : σ) (offset : Nat)
    (bytes : Bytes) : Checked (Except FinalError Unit × σ) := do
  let (pushed, cursor) ← Sink.push (⟨store, offset⟩ : Cursor σ) bytes
  return (pushed.outcome .writeZero, cursor.store)

end SealedStream
