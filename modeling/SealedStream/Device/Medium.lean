import SealedStream.Device.Memory
import SealedStream.Device.Script

/-!
# Scripted stores

A medium is a memory store whose calls follow scripts: a read may be given less room, a write may
store a front part only, and both may fail. Every write is recorded. A medium may be read-only.
-/

namespace SealedStream

/-- A write to a store as its record shows it. -/
structure StoreWrite where
  offset : Nat
  offered : Nat
  reply : Except IoKind Nat

structure Medium where
  contents : Memory
  writable : Bool
  readScript : Script
  writeScript : Script
  writes : List StoreWrite

namespace Medium

/-- A writable medium without any fault. -/
def ofMemory (contents : Memory) : Medium := ⟨contents, true, [], [], []⟩

def readAt (medium : Medium) (offset room : Nat) : Except IoError Bytes × Medium :=
  match medium.readScript with
  | [] => (.ok (medium.contents.readAt offset room), medium)
  | .limit count :: rest =>
    (.ok (medium.contents.readAt offset (min room count)), { medium with readScript := rest })
  | .fail error :: rest => (.error error, { medium with readScript := rest })

/-- The medium with a call entered into its record. -/
def record (medium : Medium) (offset offered : Nat) (reply : Except IoKind Nat) : Medium :=
  { medium with writes := medium.writes ++ [⟨offset, offered, reply⟩] }

/-- Stores a part of what was offered. If the script left nothing of it, the contents are not
touched. -/
def store (medium : Medium) (offset : Nat) (offered part : Bytes) :
    Checked (Except IoError Nat × Medium) :=
  -- An offer of nothing does reach the contents, and may make them grow.
  if part = [] ∧ offered ≠ [] then .ok (.ok 0, medium.record offset offered.length (.ok 0))
  else if medium.writable then
    match medium.contents.writeAt offset part with
    | .error trap => .error trap
    | .ok (taken, contents) =>
      .ok (.ok taken, { medium with contents }.record offset offered.length (.ok taken))
  else
    .ok (.error (.bare .unsupported), medium.record offset offered.length (.error .unsupported))

def writeAt (medium : Medium) (offset : Nat) (bytes : Bytes) :
    Checked (Except IoError Nat × Medium) :=
  match medium.writeScript with
  | [] => medium.store offset bytes bytes
  | .limit count :: rest => { medium with writeScript := rest }.store offset bytes (bytes.take count)
  | .fail error :: rest =>
    .ok (.error error,
      { medium with writeScript := rest }.record offset bytes.length (.error error.kind))

theorem length_readAt_le {medium next : Medium} {offset room : Nat} {bytes : Bytes}
    (call : medium.readAt offset room = (.ok bytes, next)) : bytes.length ≤ room := by
  unfold readAt at call
  split at call <;> cases call <;> simp only [Memory.readAt, List.length_take] <;> omega

theorem interruptions_readAt_le {medium next : Medium} {offset room : Nat}
    {reply : Except IoError Bytes} (call : medium.readAt offset room = (reply, next)) :
    next.readScript.interruptions ≤ medium.readScript.interruptions := by
  unfold readAt at call
  split at call
  next => cases call; exact Nat.le_refl _
  next count rest start =>
    cases call
    rw [start]
    exact Script.interruptions_tail_le _ rest
  next error rest start =>
    cases call
    rw [start]
    exact Script.interruptions_tail_le _ rest

theorem interruptions_readAt_lt {medium next : Medium} {offset room : Nat} {error : IoError}
    (call : medium.readAt offset room = (.error error, next))
    (interrupted : error.kind = .interrupted) :
    next.readScript.interruptions < medium.readScript.interruptions := by
  unfold readAt at call
  split at call
  next => cases call
  next => cases call
  next failure rest start =>
    cases call
    rw [start]
    exact Script.interruptions_tail_lt rest interrupted

instance : ReadableStore Medium where
  readAt medium offset room := .ok (medium.readAt offset room)
  readInterruptions medium := medium.readScript.interruptions
  length_le_room call := length_readAt_le (Except.ok.inj call)
  readInterruptions_le call := interruptions_readAt_le (Except.ok.inj call)
  readInterruptions_lt call := interruptions_readAt_lt (Except.ok.inj call)

/-- Storing takes at most the part that the script left, never fails with an interruption and leaves
the script alone. -/
theorem store_reply {medium next : Medium} {offset : Nat} {offered part : Bytes}
    {reply : Except IoError Nat} (call : medium.store offset offered part = .ok (reply, next)) :
    (∀ taken, reply = .ok taken → taken ≤ part.length) ∧
      (∀ error, reply = .error error → error.kind ≠ .interrupted) ∧
        next.writeScript = medium.writeScript := by
  unfold store at call
  split at call
  next =>
    cases call
    refine ⟨fun taken same => ?_, fun error same => (by cases same), rfl⟩
    cases same
    exact Nat.zero_le _
  next =>
    split at call
    next =>
      cases result : medium.contents.writeAt offset part with
      | error => rw [result] at call; cases call
      | ok answer =>
        obtain ⟨count, contents⟩ := answer
        rw [result] at call
        cases call
        refine ⟨fun taken same => ?_, fun error same => (by cases same), rfl⟩
        cases same
        exact Nat.le_of_eq (Memory.fst_writeAt result)
    next =>
      cases call
      refine ⟨fun taken same => (by cases same), fun error same => ?_, rfl⟩
      cases same
      decide

theorem taken_writeAt_le {medium next : Medium} {offset taken : Nat} {bytes : Bytes}
    (call : medium.writeAt offset bytes = .ok (.ok taken, next)) : taken ≤ bytes.length := by
  unfold writeAt at call
  split at call
  next => exact (store_reply call).1 taken rfl
  next count rest _ =>
    have bound := (store_reply call).1 taken rfl
    rw [List.length_take] at bound
    omega
  next => cases call

theorem interruptions_writeAt_le {medium next : Medium} {offset : Nat} {bytes : Bytes}
    {reply : Except IoError Nat} (call : medium.writeAt offset bytes = .ok (reply, next)) :
    next.writeScript.interruptions ≤ medium.writeScript.interruptions := by
  unfold writeAt at call
  split at call
  next => exact Nat.le_of_eq (by rw [(store_reply call).2.2])
  next count rest start =>
    rw [(store_reply call).2.2, start]
    exact Script.interruptions_tail_le _ rest
  next error rest start =>
    cases call
    rw [start]
    exact Script.interruptions_tail_le _ rest

theorem interruptions_writeAt_lt {medium next : Medium} {offset : Nat} {bytes : Bytes}
    {error : IoError} (call : medium.writeAt offset bytes = .ok (.error error, next))
    (interrupted : error.kind = .interrupted) :
    next.writeScript.interruptions < medium.writeScript.interruptions := by
  unfold writeAt at call
  split at call
  next => exact absurd interrupted ((store_reply call).2.1 error rfl)
  next => exact absurd interrupted ((store_reply call).2.1 error rfl)
  next failure rest start =>
    cases call
    rw [start]
    exact Script.interruptions_tail_lt rest interrupted

instance : WritableStore Medium where
  writeAt := writeAt
  writeInterruptions medium := medium.writeScript.interruptions
  taken_le_length := taken_writeAt_le
  writeInterruptions_le := interruptions_writeAt_le
  writeInterruptions_lt := interruptions_writeAt_lt

end Medium

end SealedStream
