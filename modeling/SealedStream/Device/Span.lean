import SealedStream.Device.Store

/-!
# Parts of a store

A `Span` is a part of a store as a source: it starts at an offset and ends after a number of bytes,
or where the store ends. A `Clipped` store is one that ends at an offset, whatever lies behind.
Neither calls the store when nothing is left of the part.
-/

namespace SealedStream

structure Span (σ : Type) where
  store : σ
  position : Nat
  stop : Nat

namespace Span

variable {σ : Type}

/-- The part of `limit` bytes from `offset` on, or up to the last offset if that comes first. -/
def create (store : σ) (offset limit : Nat) : Span σ :=
  ⟨store, offset, min (offset + limit) (offsetLimit - 1)⟩

def remaining (span : Span σ) : Checked Nat :=
  Checked.sub span.stop span.position

variable [ReadableStore σ]

def read (span : Span σ) (room : Nat) : Checked (Except IoError Bytes × Span σ) := do
  let count := min room (← span.remaining)
  if count = 0 then return (.ok [], span)
  else
    let (reply, store) ← ReadableStore.readAt span.store span.position count
    match reply with
    | .error error => return (.error error, { span with store })
    | .ok bytes =>
      let position ← Checked.add span.position bytes.length
      return (.ok bytes, { span with store, position })

/-- A read of a span reads nothing, or is a read of its store with no more room. -/
theorem readAt_of_read {span next : Span σ} {room : Nat} {reply : Except IoError Bytes}
    (call : span.read room = .ok (reply, next)) :
    (reply = .ok [] ∧ next = span) ∨
      ∃ count, count ≤ room ∧
        ReadableStore.readAt span.store span.position count = .ok (reply, next.store) := by
  unfold read at call
  cases left : span.remaining with
  | error => rw [left] at call; cases call
  | ok remaining =>
    by_cases none : min room remaining = 0
    · simp [left, none, bind, Except.bind, pure, Except.pure] at call
      exact .inl ⟨call.1.symm, call.2.symm⟩
    · refine .inr ⟨min room remaining, Nat.min_le_left _ _, ?_⟩
      cases inner : ReadableStore.readAt span.store span.position (min room remaining) with
      | error => simp [left, none, inner, bind, Except.bind] at call
      | ok result =>
        obtain ⟨answer, store⟩ := result
        cases answer with
        | error =>
          simp [left, none, inner, bind, Except.bind, pure, Except.pure] at call
          simp [← call]
        | ok bytes =>
          cases place : Checked.add span.position bytes.length with
          | error => simp [left, none, inner, place, bind, Except.bind] at call
          | ok position =>
            simp [left, none, inner, place, bind, Except.bind, pure, Except.pure] at call
            simp [← call]

instance : Source (Span σ) where
  read := read
  interruptions span := ReadableStore.readInterruptions span.store
  length_le_room call := by
    rcases readAt_of_read call with ⟨same, _⟩ | ⟨count, bound, inner⟩
    · cases same
      exact Nat.zero_le _
    · exact Nat.le_trans (ReadableStore.length_le_room inner) bound
  interruptions_le call := by
    rcases readAt_of_read call with ⟨_, same⟩ | ⟨count, _, inner⟩
    · exact Nat.le_of_eq (by rw [same])
    · exact ReadableStore.readInterruptions_le inner
  interruptions_lt call interrupted := by
    rcases readAt_of_read call with ⟨same, _⟩ | ⟨count, _, inner⟩
    · cases same
    · exact ReadableStore.readInterruptions_lt inner interrupted

end Span

structure Clipped (σ : Type) where
  store : σ
  stop : Nat

namespace Clipped

variable {σ : Type} [ReadableStore σ]

def readAt (clipped : Clipped σ) (offset room : Nat) :
    Checked (Except IoError Bytes × Clipped σ) := do
  if clipped.stop ≤ offset then return (.ok [], clipped)
  else
    let (reply, store) ←
      ReadableStore.readAt clipped.store offset (min room (clipped.stop - offset))
    return (reply, { clipped with store })

theorem readAt_inner {clipped next : Clipped σ} {offset room : Nat}
    {reply : Except IoError Bytes} (call : clipped.readAt offset room = .ok (reply, next)) :
    (reply = .ok [] ∧ next = clipped) ∨
      ∃ count, count ≤ room ∧
        ReadableStore.readAt clipped.store offset count = .ok (reply, next.store) := by
  unfold readAt at call
  by_cases past : clipped.stop ≤ offset
  · simp [past, pure, Except.pure] at call
    exact .inl ⟨call.1.symm, call.2.symm⟩
  · refine .inr ⟨min room (clipped.stop - offset), Nat.min_le_left _ _, ?_⟩
    cases inner : ReadableStore.readAt clipped.store offset (min room (clipped.stop - offset)) with
    | error => simp [past, inner, bind, Except.bind] at call
    | ok result =>
      simp [past, inner, bind, Except.bind, pure, Except.pure] at call
      simp [← call]

instance : ReadableStore (Clipped σ) where
  readAt := readAt
  readInterruptions clipped := ReadableStore.readInterruptions clipped.store
  length_le_room call := by
    rcases readAt_inner call with ⟨same, _⟩ | ⟨count, bound, inner⟩
    · cases same
      exact Nat.zero_le _
    · exact Nat.le_trans (ReadableStore.length_le_room inner) bound
  readInterruptions_le call := by
    rcases readAt_inner call with ⟨_, same⟩ | ⟨count, _, inner⟩
    · exact Nat.le_of_eq (by rw [same])
    · exact ReadableStore.readInterruptions_le inner
  readInterruptions_lt call interrupted := by
    rcases readAt_inner call with ⟨same, _⟩ | ⟨count, _, inner⟩
    · cases same
    · exact ReadableStore.readInterruptions_lt inner interrupted

end Clipped

end SealedStream
