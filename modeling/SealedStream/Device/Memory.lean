import SealedStream.Device.Store

/-!
# Stores in memory

A memory store is a run of bytes. Reading past its end gives nothing, writing past its end puts
zeros in between. `readAt_put` says that what was written is read back.
-/

namespace SealedStream

structure Memory where
  bytes : Bytes
deriving DecidableEq

namespace Memory

def empty : Memory := ⟨[]⟩

def length (memory : Memory) : Nat := memory.bytes.length

def readAt (memory : Memory) (offset room : Nat) : Bytes :=
  (memory.bytes.drop offset).take room

/-- The bytes, with zeros behind them up to a length that is not less. -/
def padded (bytes : Bytes) (length : Nat) : Bytes :=
  bytes ++ List.replicate (length - bytes.length) 0

/-- The store with `bytes` from `offset` on. It grows to hold them, even if there are none. -/
def put (memory : Memory) (offset : Nat) (bytes : Bytes) : Memory :=
  let grown := padded memory.bytes (offset + bytes.length)
  ⟨grown.take offset ++ bytes ++ grown.drop (offset + bytes.length)⟩

def writeAt (memory : Memory) (offset : Nat) (bytes : Bytes) : Checked (Nat × Memory) := do
  let _ ← Checked.add offset bytes.length
  return (bytes.length, memory.put offset bytes)

/-- The store at another length: cut off, or with zeros at the end. -/
def resize (memory : Memory) (length : Nat) : Memory :=
  ⟨padded (memory.bytes.take length) length⟩

/-- The store with one byte changed by exclusive or. -/
def flip (memory : Memory) (position : Nat) (mask : UInt8) : Checked Memory :=
  if position < memory.bytes.length then .ok ⟨memory.bytes.modify position (· ^^^ mask)⟩
  else .error .outOfBounds

theorem length_padded (bytes : Bytes) (length : Nat) :
    (padded bytes length).length = max bytes.length length := by
  simp only [padded, List.length_append, List.length_replicate]
  omega

theorem length_put (memory : Memory) (offset : Nat) (bytes : Bytes) :
    (memory.put offset bytes).length = max memory.length (offset + bytes.length) := by
  simp only [put, length, List.length_append, List.length_take, List.length_drop, length_padded]
  omega

/-- What was written is read back. -/
theorem readAt_put (memory : Memory) (offset : Nat) (bytes : Bytes) :
    (memory.put offset bytes).readAt offset bytes.length = bytes := by
  have start : ((padded memory.bytes (offset + bytes.length)).take offset).length = offset := by
    rw [List.length_take, length_padded]
    omega
  simp only [readAt, put, List.append_assoc]
  rw [List.drop_append_of_le_length (Nat.le_of_eq start.symm),
    List.drop_of_length_le (Nat.le_of_eq start), List.nil_append, List.take_left]

instance : ReadableStore Memory where
  readAt memory offset room := .ok (.ok (memory.readAt offset room), memory)
  readInterruptions _ := 0
  length_le_room call := by
    cases call
    simp only [readAt, List.length_take]
    omega
  readInterruptions_le _ := Nat.le_refl _
  readInterruptions_lt call := by cases call

theorem fst_writeAt {memory next : Memory} {offset taken : Nat} {bytes : Bytes}
    (call : memory.writeAt offset bytes = .ok (taken, next)) : taken = bytes.length := by
  unfold writeAt at call
  cases place : Checked.add offset bytes.length with
  | error => rw [place] at call; cases call
  | ok stop => rw [place] at call; cases call; rfl

instance : WritableStore Memory where
  writeAt memory offset bytes := (memory.writeAt offset bytes).map fun (taken, next) => (.ok taken, next)
  writeInterruptions _ := 0
  taken_le_length {memory _ offset bytes _} call := by
    cases result : memory.writeAt offset bytes with
    | error => rw [result] at call; cases call
    | ok answer =>
      rw [result] at call
      cases call
      exact Nat.le_of_eq (fst_writeAt result)
  writeInterruptions_le _ := Nat.le_refl _
  writeInterruptions_lt {memory _ offset bytes _} call := by
    cases result : memory.writeAt offset bytes <;> rw [result] at call <;> cases call

end Memory

end SealedStream
