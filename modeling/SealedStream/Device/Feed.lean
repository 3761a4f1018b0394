import SealedStream.Device.Script
import SealedStream.Device.Source

/-!
# Scripted sources

A feed hands out given bytes in the pieces, and with the errors, that its script lays down.
-/

namespace SealedStream

structure Feed where
  bytes : Bytes
  script : Script

namespace Feed

def give (feed : Feed) (count : Nat) (script : Script) : Except IoError Bytes × Feed :=
  (.ok (feed.bytes.take count), ⟨feed.bytes.drop count, script⟩)

def read (feed : Feed) (room : Nat) : Except IoError Bytes × Feed :=
  match feed.script with
  | [] => feed.give room []
  | .limit count :: rest => feed.give (min room count) rest
  | .fail error :: rest => (.error error, { feed with script := rest })

theorem length_read_le {feed next : Feed} {room : Nat} {bytes : Bytes}
    (call : feed.read room = (.ok bytes, next)) : bytes.length ≤ room := by
  unfold read at call
  split at call <;> cases call <;> simp only [List.length_take] <;> omega

theorem interruptions_read_le {feed next : Feed} {room : Nat} {reply : Except IoError Bytes}
    (call : feed.read room = (reply, next)) :
    next.script.interruptions ≤ feed.script.interruptions := by
  unfold read at call
  split at call
  next empty => cases call; simp [Script.interruptions]
  next count rest start =>
    cases call
    rw [start]
    exact Script.interruptions_tail_le _ rest
  next error rest start =>
    cases call
    rw [start]
    exact Script.interruptions_tail_le _ rest

theorem interruptions_read_lt {feed next : Feed} {room : Nat} {error : IoError}
    (call : feed.read room = (.error error, next)) (interrupted : error.kind = .interrupted) :
    next.script.interruptions < feed.script.interruptions := by
  unfold read at call
  split at call
  next => cases call
  next => cases call
  next failure rest start =>
    cases call
    rw [start]
    exact Script.interruptions_tail_lt rest interrupted

instance : Source Feed where
  read feed room := .ok (feed.read room)
  interruptions feed := feed.script.interruptions
  length_le_room call := length_read_le (Except.ok.inj call)
  interruptions_le call := interruptions_read_le (Except.ok.inj call)
  interruptions_lt call := interruptions_read_lt (Except.ok.inj call)

/-- A feed that hands out all that is asked for. -/
def ofBytes (bytes : Bytes) : Feed := ⟨bytes, []⟩

end Feed

end SealedStream
