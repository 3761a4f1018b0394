import SealedStream.Checksum
import SealedStream.Error.Basic

/-!
# Frames

A frame is the physical form of a chunk: the checksum header, then the payload. Sealing puts the
header in front of a payload; verifying accepts a frame if it has a payload and the header is that
payload's checksum. `verify_eq_ok_iff` says that the frames accepted are exactly the sealed nonempty
payloads.
-/

namespace SealedStream.Frame

def ofPayload (payload : Bytes) : Bytes :=
  (Checksum.of payload).header ++ payload

def payload (frame : Bytes) : Bytes :=
  frame.drop Layout.headerLength

def verify (frame : Bytes) : Except Damage Checksum :=
  match Checksum.ofHeader? frame with
  | none => .error (.malformedChunk frame.length)
  | some stored =>
    if frame.length ≤ Layout.headerLength then .error (.malformedChunk frame.length)
    else
      let actual := Checksum.of (payload frame)
      if stored = actual then .ok stored
      else .error (.checksumMismatch stored.value actual.value)

@[simp] theorem length_ofPayload (bytes : Bytes) :
    (ofPayload bytes).length = Layout.headerLength + bytes.length := by
  simp [ofPayload]

theorem ofPayload_ne_nil (bytes : Bytes) : ofPayload bytes ≠ [] := by
  apply List.length_pos_iff.mp
  rw [length_ofPayload, Layout.headerLength]
  omega

@[simp] theorem payload_header_append (sum : Checksum) (bytes : Bytes) :
    payload (sum.header ++ bytes) = bytes := by
  simp [payload, List.drop_append]

@[simp] theorem payload_ofPayload (bytes : Bytes) : payload (ofPayload bytes) = bytes :=
  payload_header_append _ bytes

/-- The frames that verify are the sealed payloads with at least one byte. -/
theorem verify_eq_ok_iff {frame : Bytes} {sum : Checksum} :
    verify frame = .ok sum ↔
      ∃ bytes, bytes ≠ [] ∧ frame = ofPayload bytes ∧ sum = Checksum.of bytes := by
  constructor
  · intro accepted
    unfold verify at accepted
    split at accepted
    next => cases accepted
    next stored found =>
      split at accepted
      next => cases accepted
      next long =>
        dsimp only at accepted
        split at accepted
        next same =>
          cases accepted
          obtain ⟨bytes, rfl⟩ := Checksum.ofHeader?_eq_some_iff.mp found
          rw [payload_header_append] at same
          refine ⟨bytes, ?_, ?_, same⟩
          · rintro rfl
            simp at long
          · rw [ofPayload, ← same]
        next => cases accepted
  · rintro ⟨bytes, nonempty, rfl, rfl⟩
    have stored : Checksum.ofHeader? (ofPayload bytes) = some (Checksum.of bytes) :=
      Checksum.ofHeader?_header _ bytes
    have long : ¬ (ofPayload bytes).length ≤ Layout.headerLength := by
      have : 0 < bytes.length := List.length_pos_iff.mpr nonempty
      rw [length_ofPayload]
      omega
    unfold verify
    rw [stored]
    dsimp only
    rw [if_neg long, payload_ofPayload, if_pos rfl]

/-- A frame that verifies is the payload behind its header, sealed. -/
theorem of_verify {frame : Bytes} {sum : Checksum} (verified : verify frame = .ok sum) :
    payload frame ≠ [] ∧ frame = ofPayload (payload frame) ∧ sum = Checksum.of (payload frame) := by
  obtain ⟨bytes, nonempty, rfl, rfl⟩ := verify_eq_ok_iff.mp verified
  rw [payload_ofPayload]
  exact ⟨nonempty, rfl, rfl⟩

end SealedStream.Frame
