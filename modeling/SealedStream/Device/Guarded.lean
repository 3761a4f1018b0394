import SealedStream.Device.Store

/-!
# Guarded stores

A trap leaves no state behind. A guarded store turns a write that traps into one that fails for
good, and remembers the trap; so a caller can stop on it and still see what every party had done by
then. The store itself is as it was before that write.
-/

namespace SealedStream

structure Guarded (σ : Type) where
  store : σ
  trap : Option Trap

namespace Guarded

variable {σ : Type}

def create (store : σ) : Guarded σ := ⟨store, none⟩

instance [ReadableStore σ] : ReadableStore (Guarded σ) where
  readAt guarded offset room := do
    let (reply, store) ← ReadableStore.readAt guarded.store offset room
    return (reply, { guarded with store })
  readInterruptions guarded := ReadableStore.readInterruptions guarded.store
  length_le_room call := by
    obtain ⟨⟨reply, store⟩, inner, call⟩ := Checked.bind_eq_ok_iff.mp call
    cases call
    exact ReadableStore.length_le_room inner
  readInterruptions_le call := by
    obtain ⟨⟨reply, store⟩, inner, call⟩ := Checked.bind_eq_ok_iff.mp call
    cases call
    exact ReadableStore.readInterruptions_le inner
  readInterruptions_lt call := by
    obtain ⟨⟨reply, store⟩, inner, call⟩ := Checked.bind_eq_ok_iff.mp call
    cases call
    exact ReadableStore.readInterruptions_lt inner

variable [WritableStore σ]

def writeAt (guarded : Guarded σ) (offset : Nat) (bytes : Bytes) :
    Except IoError Nat × Guarded σ :=
  match WritableStore.writeAt guarded.store offset bytes with
  | .ok (reply, store) => (reply, { guarded with store })
  | .error trap => (.error (.bare .other), { guarded with trap := some trap })

/-- A guarded write is a write of the store, or fails for good and leaves the store alone. -/
theorem writeAt_eq {guarded next : Guarded σ} {offset : Nat} {bytes : Bytes}
    {reply : Except IoError Nat} (call : guarded.writeAt offset bytes = (reply, next)) :
    WritableStore.writeAt guarded.store offset bytes = .ok (reply, next.store) ∨
      reply = .error (.bare .other) ∧ next.store = guarded.store := by
  unfold writeAt at call
  split at call
  next inner => cases call; exact .inl inner
  next => cases call; exact .inr ⟨rfl, rfl⟩

instance : WritableStore (Guarded σ) where
  writeAt guarded offset bytes := .ok (guarded.writeAt offset bytes)
  writeInterruptions guarded := WritableStore.writeInterruptions guarded.store
  taken_le_length call := by
    rcases writeAt_eq (Except.ok.inj call) with inner | ⟨failed, _⟩
    · exact WritableStore.taken_le_length inner
    · cases failed
  writeInterruptions_le call := by
    rcases writeAt_eq (Except.ok.inj call) with inner | ⟨_, same⟩
    · exact WritableStore.writeInterruptions_le inner
    · exact Nat.le_of_eq (by rw [same])
  writeInterruptions_lt call interrupted := by
    rcases writeAt_eq (Except.ok.inj call) with inner | ⟨failed, _⟩
    · exact WritableStore.writeInterruptions_lt inner interrupted
    · cases failed
      cases interrupted

end Guarded

end SealedStream
