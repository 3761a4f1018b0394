import SealedStream.Device.Source

/-!
# Windows on a source

A window shows a source from a position on, for a number of bytes. The bytes before it are skipped
at the first read. If that fails, the next read skips as many bytes again from where the source is
by then; if the source ends before the window starts, the window is empty.
-/

namespace SealedStream

structure Window (ρ : Type) where
  inner : ρ
  skip : Nat
  remaining : Nat

namespace Window

variable {ρ : Type}

def create (inner : ρ) (skip limit : Nat) : Window ρ :=
  ⟨inner, skip, limit⟩

variable [Source ρ]

/-- Brings the source to the start of the window. -/
def discard (window : Window ρ) : Checked (Except FinalError Unit × Window ρ) := do
  if window.skip = 0 then return (.ok (), window)
  else
    let (reply, inner) ← Source.skip window.inner window.skip
    match reply with
    -- The count to skip stays as it was, though the source has moved on.
    | .error cause => return (.error cause, { window with inner })
    | .ok skipped =>
      let remaining := if skipped < window.skip then 0 else window.remaining
      return (.ok (), { inner, skip := 0, remaining })

/-- A read of a window that the source has come to. -/
def readInside (window : Window ρ) (room : Nat) :
    Checked (Except IoError Bytes × Window ρ) := do
  if window.remaining = 0 then return (.ok [], window)
  else
    let (reply, inner) ← Source.read window.inner (min room window.remaining)
    match reply with
    | .error error => return (.error error, { window with inner })
    | .ok bytes =>
      let remaining ← Checked.sub window.remaining bytes.length
      return (.ok bytes, { window with inner, remaining })

def read (window : Window ρ) (room : Nat) : Checked (Except IoError Bytes × Window ρ) := do
  let (reply, window) ← window.discard
  match reply with
  | .error cause => return (.error cause.toIo, window)
  | .ok () => window.readInside room

theorem interruptions_discard_le {window next : Window ρ} {reply : Except FinalError Unit}
    (run : window.discard = .ok (reply, next)) :
    Source.interruptions next.inner ≤ Source.interruptions window.inner := by
  unfold discard at run
  split at run
  next => cases run; exact Nat.le_refl _
  next =>
    obtain ⟨⟨answer, inner⟩, skipping, run⟩ := Checked.bind_eq_ok_iff.mp run
    have bound := Source.interruptions_skip_le skipping
    cases answer <;> cases run <;> exact bound

/-- A read inside a window reads nothing, or is a read of the source with no more room. -/
theorem read_of_readInside {window next : Window ρ} {room : Nat} {reply : Except IoError Bytes}
    (run : window.readInside room = .ok (reply, next)) :
    (reply = .ok [] ∧ next = window) ∨
      ∃ count, count ≤ room ∧ Source.read window.inner count = .ok (reply, next.inner) := by
  unfold readInside at run
  split at run
  next => cases run; exact .inl ⟨rfl, rfl⟩
  next =>
    obtain ⟨⟨answer, inner⟩, reading, run⟩ := Checked.bind_eq_ok_iff.mp run
    refine .inr ⟨min room window.remaining, Nat.min_le_left _ _, ?_⟩
    cases answer with
    | error error => cases run; exact reading
    | ok bytes =>
      obtain ⟨remaining, _, run⟩ := Checked.bind_eq_ok_iff.mp run
      cases run
      exact reading

/-- A read of a window fails before it starts, or is one inside a window that the source has come
to. -/
theorem read_eq_ok {window next : Window ρ} {room : Nat} {reply : Except IoError Bytes}
    (run : window.read room = .ok (reply, next)) :
    (∃ cause : FinalError, reply = .error cause.toIo ∧
        Source.interruptions next.inner ≤ Source.interruptions window.inner) ∨
      ∃ middle : Window ρ, Source.interruptions middle.inner ≤ Source.interruptions window.inner ∧
        middle.readInside room = .ok (reply, next) := by
  unfold read at run
  obtain ⟨⟨answer, middle⟩, discarding, run⟩ := Checked.bind_eq_ok_iff.mp run
  have bound := interruptions_discard_le discarding
  cases answer with
  | error cause => cases run; exact .inl ⟨cause, rfl, bound⟩
  | ok _ => exact .inr ⟨middle, bound, run⟩

instance : Source (Window ρ) where
  read := read
  interruptions window := Source.interruptions window.inner
  length_le_room run := by
    rcases read_eq_ok run with ⟨cause, same, _⟩ | ⟨middle, _, inside⟩
    · cases same
    · rcases read_of_readInside inside with ⟨same, _⟩ | ⟨count, bound, reading⟩
      · cases same
        exact Nat.zero_le _
      · exact Nat.le_trans (Source.length_le_room reading) bound
  interruptions_le run := by
    rcases read_eq_ok run with ⟨cause, _, bound⟩ | ⟨middle, bound, inside⟩
    · exact bound
    · rcases read_of_readInside inside with ⟨_, same⟩ | ⟨count, _, reading⟩
      · rw [same]
        exact bound
      · exact Nat.le_trans (Source.interruptions_le reading) bound
  interruptions_lt run interrupted := by
    rcases read_eq_ok run with ⟨cause, same, _⟩ | ⟨middle, bound, inside⟩
    · cases same
      exact absurd interrupted cause.kind_ne
    · rcases read_of_readInside inside with ⟨same, _⟩ | ⟨count, _, reading⟩
      · cases same
      · exact Nat.lt_of_lt_of_le (Source.interruptions_lt reading interrupted) bound

end Window

end SealedStream
