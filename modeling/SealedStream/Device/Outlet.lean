import SealedStream.Device.Script
import SealedStream.Device.Sink

/-!
# Scripted sinks

An outlet keeps what it took, and a record of each call: how much was offered and what came of it.
Writes and flushes follow scripts of their own. A `Drain` takes everything and keeps nothing.
-/

namespace SealedStream

/-- A write to a sink as its record shows it. -/
structure SinkWrite where
  offered : Nat
  reply : Except IoKind Nat

structure Outlet where
  taken : Bytes
  script : Script
  flushScript : Script
  writes : List SinkWrite
  flushes : Nat

namespace Outlet

/-- An outlet that has not been written to. -/
def fresh (script flushScript : Script) : Outlet := ⟨[], script, flushScript, [], 0⟩

def take (outlet : Outlet) (bytes : Bytes) (count : Nat) (script : Script) :
    Except IoError Nat × Outlet :=
  let part := bytes.take count
  (.ok part.length,
    { outlet with
      taken := outlet.taken ++ part
      script
      writes := outlet.writes ++ [⟨bytes.length, .ok part.length⟩] })

def write (outlet : Outlet) (bytes : Bytes) : Except IoError Nat × Outlet :=
  match outlet.script with
  | [] => outlet.take bytes bytes.length []
  | .limit count :: rest => outlet.take bytes count rest
  | .fail error :: rest =>
    (.error error,
      { outlet with
        script := rest
        writes := outlet.writes ++ [⟨bytes.length, .error error.kind⟩] })

def flush (outlet : Outlet) : Except IoError Unit × Outlet :=
  match outlet.flushScript with
  | [] => (.ok (), { outlet with flushes := outlet.flushes + 1 })
  | .limit _ :: rest =>
    (.ok (), { outlet with flushScript := rest, flushes := outlet.flushes + 1 })
  | .fail error :: rest =>
    (.error error, { outlet with flushScript := rest, flushes := outlet.flushes + 1 })

theorem taken_write_le {outlet next : Outlet} {bytes : Bytes} {count : Nat}
    (call : outlet.write bytes = (.ok count, next)) : count ≤ bytes.length := by
  unfold write at call
  split at call <;> cases call <;> simp only [List.length_take] <;> omega

theorem interruptions_write_le {outlet next : Outlet} {bytes : Bytes} {reply : Except IoError Nat}
    (call : outlet.write bytes = (reply, next)) :
    next.script.interruptions ≤ outlet.script.interruptions := by
  unfold write at call
  split at call
  next empty => cases call; simp [Script.interruptions]
  next count rest start =>
    cases call
    rw [start]
    exact Script.interruptions_tail_le _ rest
  next error rest start =>
    cases call
    rw [start]
    exact Script.interruptions_tail_le _ rest

theorem interruptions_write_lt {outlet next : Outlet} {bytes : Bytes} {error : IoError}
    (call : outlet.write bytes = (.error error, next)) (interrupted : error.kind = .interrupted) :
    next.script.interruptions < outlet.script.interruptions := by
  unfold write at call
  split at call
  next => cases call
  next => cases call
  next failure rest start =>
    cases call
    rw [start]
    exact Script.interruptions_tail_lt rest interrupted

instance : Sink Outlet where
  write outlet bytes := .ok (outlet.write bytes)
  flush := flush
  interruptions outlet := outlet.script.interruptions
  taken_le_length call := taken_write_le (Except.ok.inj call)
  interruptions_le call := interruptions_write_le (Except.ok.inj call)
  interruptions_lt call := interruptions_write_lt (Except.ok.inj call)

end Outlet

/-- A sink that takes everything and keeps nothing. -/
structure Drain where

instance : Sink Drain where
  write drain bytes := .ok (.ok bytes.length, drain)
  flush drain := (.ok (), drain)
  interruptions _ := 0
  taken_le_length call := by cases call; exact Nat.le_refl _
  interruptions_le _ := Nat.le_refl _
  interruptions_lt call := by cases call

end SealedStream
