import SealedStream.Error.Basic

/-!
# Scripts of device behaviour

A script fixes what the next calls on a device do, one event a call. After its last event the device
transfers as much as it can. Every finite run of a device that a caller can observe is the run of
some script.
-/

namespace SealedStream

/-- One call transfers at most a number of bytes, or transfers nothing and fails. -/
inductive Event where
  | limit (count : Nat)
  | fail (error : IoError)
deriving DecidableEq

namespace Event

def isInterruption : Event → Bool
  | .limit _ => false
  | .fail error => error.kind = .interrupted

end Event

abbrev Script := List Event

namespace Script

def interruptions (script : Script) : Nat :=
  script.countP Event.isInterruption

theorem interruptions_tail_le (event : Event) (rest : Script) :
    interruptions rest ≤ interruptions (event :: rest) := by
  simp only [interruptions, List.countP_cons]
  omega

theorem interruptions_tail_lt {error : IoError} (rest : Script)
    (interrupted : error.kind = .interrupted) :
    interruptions rest < interruptions (.fail error :: rest) := by
  simp [interruptions, Event.isInterruption, interrupted]

end Script

end SealedStream
