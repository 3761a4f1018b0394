/-!
# Checked steps

Sizes and offsets are unsigned 64-bit quantities, kept here as natural numbers. An operation whose
result leaves that range, or that reaches outside a run of bytes, does not wrap and does not clip:
it stops the whole computation with a `Trap`. `Checked α` is a computation that may stop so, and
`Checked (Except ε α × σ)` one that may also fail in an orderly way, and then leaves a state too.
-/

namespace SealedStream

/-- The reasons for which a computation stops without a result. -/
inductive Trap where
  | overflow
  | assertion
  | outOfBounds
deriving DecidableEq

abbrev Checked := Except Trap

/-- Offsets and sizes are below this bound, two to the power of 64. -/
def offsetLimit : Nat := 0x10000000000000000

namespace Checked

def add (a b : Nat) : Checked Nat :=
  if a + b < offsetLimit then .ok (a + b) else .error .overflow

def sub (a b : Nat) : Checked Nat :=
  if b ≤ a then .ok (a - b) else .error .overflow

theorem add_eq_ok_iff {a b c : Nat} : add a b = .ok c ↔ a + b < offsetLimit ∧ a + b = c := by
  unfold add
  split <;> simp [*]

theorem sub_eq_ok_iff {a b c : Nat} : sub a b = .ok c ↔ b ≤ a ∧ a - b = c := by
  unfold sub
  split <;> simp [*]

theorem add_eq_overflow_iff {a b : Nat} : add a b = .error .overflow ↔ offsetLimit ≤ a + b := by
  unfold add
  split <;> simp <;> omega

theorem sub_eq_overflow_iff {a b : Nat} : sub a b = .error .overflow ↔ a < b := by
  unfold sub
  split <;> simp <;> omega

theorem add_eq_ok {a b : Nat} (fits : a + b < offsetLimit) : add a b = .ok (a + b) :=
  if_pos fits

theorem sub_eq_ok {a b : Nat} (le : b ≤ a) : sub a b = .ok (a - b) :=
  if_pos le

@[simp] theorem ok_bind {α β : Type} (value : α) (next : α → Checked β) :
    ((.ok value : Checked α) >>= next) = next value :=
  rfl

theorem bind_eq_ok_iff {α β : Type} {step : Checked α} {next : α → Checked β} {result : β} :
    (step >>= next) = .ok result ↔ ∃ value, step = .ok value ∧ next value = .ok result := by
  cases step with
  | error trap => simp [bind, Except.bind]
  | ok value => simp [bind, Except.bind]

/-- The second step starts from the value and the state of the first; an error of the first ends
both. -/
def andThen {σ ε α β : Type} (first : Checked (Except ε α × σ))
    (second : α → σ → Checked (Except ε β × σ)) : Checked (Except ε β × σ) := do
  let (reply, state) ← first
  match reply with
  | .ok value => second value state
  | .error error => return (.error error, state)

@[simp] theorem ok_andThen {σ ε α β : Type} (value : α) (state : σ)
    (second : α → σ → Checked (Except ε β × σ)) :
    andThen (.ok (.ok value, state)) second = second value state :=
  rfl

@[simp] theorem error_andThen {σ ε α β : Type} (error : ε) (state : σ)
    (second : α → σ → Checked (Except ε β × σ)) :
    andThen (.ok (.error error, state)) second = .ok (.error error, state) :=
  rfl

theorem andThen_assoc {σ ε α β γ : Type} (first : Checked (Except ε α × σ))
    (second : α → σ → Checked (Except ε β × σ)) (third : β → σ → Checked (Except ε γ × σ)) :
    andThen (andThen first second) third =
      andThen first fun value state => andThen (second value state) third := by
  rcases first with trap | ⟨error | value, state⟩ <;> rfl

/-- A last step that does nothing can be left out. -/
theorem andThen_done {σ ε : Type} (first : Checked (Except ε Unit × σ)) :
    (andThen first fun _ state => .ok (.ok (), state)) = first := by
  rcases first with trap | ⟨error | value, state⟩ <;> rfl

end Checked

end SealedStream
