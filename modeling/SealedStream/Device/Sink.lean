import SealedStream.Bytes
import SealedStream.Checked
import SealedStream.Error.Final

/-!
# Byte sinks

A sink takes bytes from the front of what it is offered. As with sources a call may be interrupted
finitely often. `push` offers what is left of a buffer until all is taken, the sink takes nothing,
or a call fails for good; it reports how far it came.
-/

namespace SealedStream

/-- One call of `write` takes at most the bytes offered, and tells how many. -/
class Sink (κ : Type) where
  write : κ → Bytes → Checked (Except IoError Nat × κ)
  flush : κ → Except IoError Unit × κ
  interruptions : κ → Nat
  taken_le_length {sink next : κ} {bytes : Bytes} {taken : Nat} :
    write sink bytes = .ok (.ok taken, next) → taken ≤ bytes.length
  interruptions_le {sink next : κ} {bytes : Bytes} {reply : Except IoError Nat} :
    write sink bytes = .ok (reply, next) → interruptions next ≤ interruptions sink
  interruptions_lt {sink next : κ} {bytes : Bytes} {error : IoError} :
    write sink bytes = .ok (.error error, next) → error.kind = .interrupted →
      interruptions next < interruptions sink

/-- Why a loop of writes ended before all was taken. -/
inductive Stall where
  | refused
  | failed (cause : FinalError)

/-- How many bytes a loop of writes got rid of, and what ended it early. -/
structure Pushed where
  taken : Nat
  stall : Option Stall

/-- Success if everything was taken; `refusal` is the error if the sink took nothing of a rest. -/
def Pushed.outcome (pushed : Pushed) (refusal : FinalError) : Except FinalError Unit :=
  match pushed.stall with
  | none => .ok ()
  | some .refused => .error refusal
  | some (.failed cause) => .error cause

namespace Sink

variable {κ : Type} [Sink κ]

/-- Offers the bytes, and again what is left of them, until nothing is left or the sink stalls. -/
def push (sink : κ) (bytes : Bytes) : Checked (Pushed × κ) :=
  if bytes = [] then .ok (⟨0, none⟩, sink)
  else
    match _call : write sink bytes with
    | .error trap => .error trap
    | .ok (.ok taken, next) =>
      if taken = 0 then .ok (⟨0, some .refused⟩, next)
      else
        match push next (bytes.drop taken) with
        | .error trap => .error trap
        | .ok (rest, last) => .ok (⟨taken + rest.taken, rest.stall⟩, last)
    | .ok (.error error, next) =>
      if final : error.kind = .interrupted then push next bytes
      else .ok (⟨0, some (.failed ⟨error, final⟩)⟩, next)
termination_by bytes.length + interruptions sink
decreasing_by
  · rename_i nonempty positive
    have bound := interruptions_le _call
    have : 0 < bytes.length := List.length_pos_iff.mpr nonempty
    rw [List.length_drop]
    omega
  · have bound := interruptions_lt _call final
    omega

/-- Writes everything or fails. -/
def writeAll (sink : κ) (bytes : Bytes) : Checked (Except FinalError Unit × κ) := do
  let (pushed, sink) ← push sink bytes
  return (pushed.outcome .unwrittenBuffer, sink)

/-- A loop of writes takes no more than there is. -/
theorem taken_push_le {sink last : κ} {bytes : Bytes} {pushed : Pushed}
    (run : push sink bytes = .ok (pushed, last)) : pushed.taken ≤ bytes.length := by
  fun_induction push sink bytes generalizing pushed last with
  | case1 => cases run; exact Nat.zero_le _
  | case2 => cases run
  | case3 => cases run; exact Nat.zero_le _
  | case4 => cases run
  | case5 sink bytes _ taken next call _ rest middle inner ih =>
    cases run
    have first := taken_le_length call
    have second := ih inner
    rw [List.length_drop] at second
    dsimp only
    omega
  | case6 sink bytes _ error next _ _ ih => exact ih run
  | case7 => cases run; exact Nat.zero_le _

/-- A loop of writes does not add interruptions. -/
theorem interruptions_push_le {sink last : κ} {bytes : Bytes} {pushed : Pushed}
    (run : push sink bytes = .ok (pushed, last)) : interruptions last ≤ interruptions sink := by
  fun_induction push sink bytes generalizing pushed last with
  | case1 => cases run; exact Nat.le_refl _
  | case2 => cases run
  | case3 sink bytes _ next call => cases run; exact interruptions_le call
  | case4 => cases run
  | case5 sink bytes _ taken next call _ rest middle inner ih =>
    cases run
    exact Nat.le_trans (ih inner) (interruptions_le call)
  | case6 sink bytes _ error next call _ ih =>
    exact Nat.le_trans (ih run) (interruptions_le call)
  | case7 sink bytes _ error next call _ => cases run; exact interruptions_le call

end Sink

end SealedStream
