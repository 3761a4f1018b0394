import SealedStream.Bytes
import SealedStream.Checked
import SealedStream.Error.Final

/-!
# Byte sources

A source hands out bytes a few at a time. A call may be interrupted, but only finitely often:
`interruptions` bounds how often still. That bound lets the loops below make an interrupted call
again and yet end. `gather` reads until it has as many bytes as are needed, `skip` reads past bytes
without keeping them.
-/

namespace SealedStream

/-- One call of `read` hands out at most `room` bytes, and none at the end of the data. -/
class Source (ρ : Type) where
  read : ρ → (room : Nat) → Checked (Except IoError Bytes × ρ)
  interruptions : ρ → Nat
  length_le_room {source next : ρ} {room : Nat} {bytes : Bytes} :
    read source room = .ok (.ok bytes, next) → bytes.length ≤ room
  interruptions_le {source next : ρ} {room : Nat} {reply : Except IoError Bytes} :
    read source room = .ok (reply, next) → interruptions next ≤ interruptions source
  interruptions_lt {source next : ρ} {room : Nat} {error : IoError} :
    read source room = .ok (.error error, next) → error.kind = .interrupted →
      interruptions next < interruptions source

/-- A reply to a read that keeps to its room and is not an interruption. -/
def Source.Settled (room : Nat) : Except IoError Bytes → Prop
  | .ok bytes => bytes.length ≤ room
  | .error error => error.kind ≠ .interrupted

theorem Source.settled_take (room : Nat) (bytes : Bytes) : Settled room (.ok (bytes.take room)) :=
  List.length_take_le room bytes

/-- What a loop of reads got, and the error that cut it short. -/
structure Gathered where
  bytes : Bytes
  failure : Option FinalError

namespace Gathered

def nothing : Gathered := ⟨[], none⟩

/-- Success if as many bytes as needed came; `shortage` if the data ended first. -/
def outcome (gathered : Gathered) (need : Nat) (shortage : FinalError) : Except FinalError Unit :=
  match gathered.failure with
  | some error => .error error
  | none => if gathered.bytes.length < need then .error shortage else .ok ()

end Gathered

namespace Source

variable {ρ : Type} [Source ρ]

/-- Reads with `room` left for bytes until at least `need` have come, the data ends or a read fails
for good. -/
def gather (source : ρ) (need room : Nat) : Checked (Gathered × ρ) :=
  if need = 0 then .ok (.nothing, source)
  else
    match _call : read source room with
    | .error trap => .error trap
    | .ok (.ok bytes, next) =>
      -- Nothing read means the end of the data.
      if bytes = [] then .ok (.nothing, next)
      else
        match gather next (need - bytes.length) (room - bytes.length) with
        | .error trap => .error trap
        | .ok (rest, last) => .ok (⟨bytes ++ rest.bytes, rest.failure⟩, last)
    | .ok (.error error, next) =>
      if final : error.kind = .interrupted then gather next need room
      else .ok (⟨[], some ⟨error, final⟩⟩, next)
termination_by need + interruptions source
decreasing_by
  · rename_i nonempty
    have bound := interruptions_le _call
    have : 0 < bytes.length := List.length_pos_iff.mpr nonempty
    omega
  · have bound := interruptions_lt _call final
    omega

/-- Reads until `room` bytes have come or the data ends. -/
def readFull (source : ρ) (room : Nat) : Checked (Gathered × ρ) :=
  gather source room room

/-- The most that one read of `skip` asks for. -/
def skipBlock : Nat := 8192

/-- Reads past `count` bytes, and tells how many there were. -/
def skip (source : ρ) (count : Nat) : Checked (Except FinalError Nat × ρ) :=
  if count = 0 then .ok (.ok 0, source)
  else
    match _call : read source (min skipBlock count) with
    | .error trap => .error trap
    | .ok (.ok bytes, next) =>
      if bytes = [] then .ok (.ok 0, next)
      else
        match skip next (count - bytes.length) with
        | .error trap => .error trap
        | .ok (rest, last) => .ok (rest.map (bytes.length + ·), last)
    | .ok (.error error, next) =>
      if final : error.kind = .interrupted then skip next count
      else .ok (.error ⟨error, final⟩, next)
termination_by count + interruptions source
decreasing_by
  · rename_i nonempty
    have bound := interruptions_le _call
    have : 0 < bytes.length := List.length_pos_iff.mpr nonempty
    omega
  · have bound := interruptions_lt _call final
    omega

/-- A gathering keeps to its room. -/
theorem length_gather_le {source last : ρ} {need room : Nat} {gathered : Gathered}
    (run : gather source need room = .ok (gathered, last)) : gathered.bytes.length ≤ room := by
  fun_induction gather source need room generalizing gathered last with
  | case1 => cases run; exact Nat.zero_le _
  | case2 => cases run
  | case3 => cases run; exact Nat.zero_le _
  | case4 => cases run
  | case5 source need room _ bytes next call _ rest middle inner ih =>
    cases run
    have first := length_le_room call
    have second := ih inner
    rw [List.length_append]
    omega
  | case6 source need room _ error next _ _ ih => exact ih run
  | case7 => cases run; exact Nat.zero_le _

/-- Gathering does not add interruptions. -/
theorem interruptions_gather_le {source last : ρ} {need room : Nat} {gathered : Gathered}
    (run : gather source need room = .ok (gathered, last)) :
    interruptions last ≤ interruptions source := by
  fun_induction gather source need room generalizing gathered last with
  | case1 => cases run; exact Nat.le_refl _
  | case2 => cases run
  | case3 source need room _ next call => cases run; exact interruptions_le call
  | case4 => cases run
  | case5 source need room _ bytes next call _ rest middle inner ih =>
    cases run
    exact Nat.le_trans (ih inner) (interruptions_le call)
  | case6 source need room _ error next call _ ih =>
    exact Nat.le_trans (ih run) (interruptions_le call)
  | case7 source need room _ error next call _ => cases run; exact interruptions_le call

/-- Skipping does not add interruptions. -/
theorem interruptions_skip_le {source last : ρ} {count : Nat} {reply : Except FinalError Nat}
    (run : skip source count = .ok (reply, last)) : interruptions last ≤ interruptions source := by
  fun_induction skip source count generalizing reply last with
  | case1 => cases run; exact Nat.le_refl _
  | case2 => cases run
  | case3 source count _ next call => cases run; exact interruptions_le call
  | case4 => cases run
  | case5 source count _ bytes next call _ rest middle inner ih =>
    cases run
    exact Nat.le_trans (ih inner) (interruptions_le call)
  | case6 source count _ error next call _ ih =>
    exact Nat.le_trans (ih run) (interruptions_le call)
  | case7 source count _ error next call _ => cases run; exact interruptions_le call

end Source

end SealedStream
