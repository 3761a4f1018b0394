import SealedStream.Proofs.Loops

/-!
# Phases of writing

A phase takes a number of bytes from a source and stores what its plan makes of them. Devices may
fail at any point, so a phase that fails has followed its plan up to some byte. `Follows` says that a
phase comes back, that what it has stored is a front part of the plan for the bytes it was given and
any others behind them, and that it has taken and stored everything exactly if it succeeds.
`Follows.andThen` puts two phases together.
-/
namespace SealedStream

variable {σ ρ τ α β : Type}

/-- The two devices of a writer that stores what a source gives. -/
structure Devices (σ ρ : Type) where
  store : σ
  source : ρ

section Phases

variable [TracedStore σ] [TracedSource ρ]

/-- What went from the source and into the store between two states of the devices. -/
structure Moved (before after : Devices σ ρ) (given : Bytes) (stored : List Entry) : Prop where
  given : TracedSource.given after.source = TracedSource.given before.source ++ given
  trace : TracedStore.trace after.store = TracedStore.trace before.store ++ stored
  contents : LawfulStore.contents after.store =
    (LawfulStore.contents before.store).replay stored

theorem Moved.nothing (devices : Devices σ ρ) : Moved devices devices [] [] :=
  ⟨(List.append_nil _).symm, (List.append_nil _).symm, rfl⟩

theorem Moved.trans {first second third : Devices σ ρ} {given more : Bytes}
    {stored further : List Entry} (front : Moved first second given stored)
    (back : Moved second third more further) :
    Moved first third (given ++ more) (stored ++ further) where
  given := by rw [back.given, front.given, List.append_assoc]
  trace := by rw [back.trace, front.trace, List.append_assoc]
  contents := by rw [back.contents, front.contents, Memory.replay_append]

theorem Moved.ofRead {source last : ρ} {bytes : Bytes} (store : σ)
    (grown : TracedSource.given last = TracedSource.given source ++ bytes) :
    Moved ⟨store, source⟩ ⟨store, last⟩ bytes [] :=
  ⟨grown, (List.append_nil _).symm, rfl⟩

theorem Moved.thenStored {before : Devices σ ρ} {store last : σ} {source : ρ} {given : Bytes}
    {offset : Nat} {bytes : Bytes} (read : Moved before ⟨store, source⟩ given [])
    (stored : Stored store last offset bytes) :
    Moved before ⟨last, source⟩ given (Entry.row offset bytes) where
  given := read.given
  trace := by rw [stored.trace, read.trace, List.append_nil]
  contents := by rw [stored.contents, read.contents]; rfl

/-- Bytes that a source may give in all, if it has given some of them. -/
structure Completes (count : Nat) (given wanted : Bytes) : Prop where
  length : wanted.length = count
  front : given <+: wanted

theorem Completes.eq {count : Nat} {given wanted : Bytes} (completes : Completes count given wanted)
    (all : given.length = count) : wanted = given :=
  (completes.front.eq_of_length (all.trans completes.length.symm)).symm

theorem exists_completes {count : Nat} {given : Bytes} (le : given.length ≤ count) (byte : UInt8) :
    Completes count given (given ++ List.replicate (count - given.length) byte) := by
  refine ⟨?_, List.prefix_append _ _⟩
  rw [List.length_append, List.length_replicate]
  omega

/-- What is stored is a front part of the plan, whatever else the source gives. -/
structure Followed (before after : Devices σ ρ) (count : Nat) (plan : Bytes → List Entry)
    (given : Bytes) (stored : List Entry) : Prop where
  moved : Moved before after given stored
  length : given.length ≤ count
  stored : ∀ wanted, Completes count given wanted → stored <+: plan wanted

/-- A step comes back and has followed its plan, all of it exactly if it succeeds. The
postcondition speaks of the bytes taken, the value and the state of a step that succeeds. -/
def Follows (view : τ → Devices σ ρ) (step : Checked (Except StreamError α × τ))
    (before : Devices σ ρ) (count : Nat) (plan : Bytes → List Entry)
    (post : Bytes → α → τ → Prop) : Prop :=
  ∃ reply after given stored, step = .ok (reply, after) ∧
    Followed before (view after) count plan given stored ∧
    (∀ value, reply = .ok value →
      given.length = count ∧ stored = plan given ∧ post given value after) ∧
    (∀ error, reply = .error error →
      ∀ wanted, Completes count given wanted → stored ≠ plan wanted)

variable (view : τ → Devices σ ρ) {before : Devices σ ρ} {count more : Nat}
  {plan : Bytes → List Entry} {post : Bytes → α → τ → Prop}

theorem Follows.succeeded {value : α} {after : τ} {given : Bytes}
    (moved : Moved before (view after) given (plan given)) (length : given.length = count)
    (holds : post given value after) :
    Follows view (.ok (.ok value, after)) before count plan post := by
  refine ⟨.ok value, after, given, plan given, rfl, ⟨moved, Nat.le_of_eq length, ?_⟩, ?_, ?_⟩
  · intro wanted completes
    exact completes.eq length ▸ List.prefix_refl _
  · intro _ same
    cases same
    exact ⟨length, rfl, holds⟩
  · intro _ same
    cases same

/-- A step that succeeds without touching the devices follows a plan that needs nothing. -/
theorem Follows.idle {state : τ} {value : α} (empty : plan [] = []) (holds : post [] value state) :
    Follows view (.ok (.ok value, state)) (view state) 0 plan post :=
  .succeeded view (empty.symm ▸ Moved.nothing _) rfl holds

theorem Follows.failed {error : StreamError} {after : τ} {given : Bytes} {stored : List Entry}
    (moved : Moved before (view after) given stored) (le : given.length ≤ count)
    (upto : ∀ wanted, Completes count given wanted →
      stored <+: plan wanted ∧ stored ≠ plan wanted) :
    Follows view (.ok (.error error, after)) before count plan post :=
  ⟨.error error, after, given, stored, rfl,
    ⟨moved, le, fun wanted completes => (upto wanted completes).1⟩,
    fun _ same => (by cases same), fun _ _ wanted completes => (upto wanted completes).2⟩

/-- A step that fails while it reads has stored nothing. -/
theorem Follows.starved {error : StreamError} {after : τ} {given : Bytes}
    (moved : Moved before (view after) given []) (le : given.length ≤ count)
    (some : ∀ wanted, wanted.length = count → plan wanted ≠ []) :
    Follows view (.ok (.error error, after)) before count plan post :=
  .failed view moved le fun wanted completes =>
    ⟨List.nil_prefix, (some wanted completes.length).symm⟩

/-- A step that fails while it writes has stored a front part of its bytes. -/
theorem Follows.stuck {error : StreamError} {after : τ} {given : Bytes} {offset taken : Nat}
    {bytes : Bytes} (moved : Moved before (view after) given (Entry.row offset (bytes.take taken)))
    (length : given.length = count) (planned : plan given = Entry.row offset bytes)
    (short : taken < bytes.length) :
    Follows view (.ok (.error error, after)) before count plan post := by
  apply Follows.failed view moved (Nat.le_of_eq length)
  intro wanted completes
  rw [completes.eq length, planned]
  refine ⟨Entry.row_take_prefix offset bytes taken, fun same => ?_⟩
  -- Rows of different lengths are different.
  have lengths := congrArg List.length same
  rw [Entry.length_row, Entry.length_row, List.length_take] at lengths
  omega

variable {view}

/-- The plan may be put differently. -/
theorem Follows.replan {step : Checked (Except StreamError α × τ)} {other : Bytes → List Entry}
    {post' : Bytes → α → τ → Prop} (follows : Follows view step before count plan post)
    (same : ∀ wanted, wanted.length = count → plan wanted = other wanted)
    (weaker : ∀ wanted value after, post wanted value after → post' wanted value after) :
    Follows view step before count other post' := by
  obtain ⟨reply, after, given, stored, run, followed, success, failure⟩ := follows
  refine ⟨reply, after, given, stored, run, ⟨followed.moved, followed.length, ?_⟩, ?_, ?_⟩
  · intro wanted completes
    rw [← same wanted completes.length]
    exact followed.stored wanted completes
  · intro value answer
    obtain ⟨all, whole, holds⟩ := success value answer
    exact ⟨all, (same given all) ▸ whole, weaker given value after holds⟩
  · intro error answer wanted completes
    rw [← same wanted completes.length]
    exact failure error answer wanted completes

/-- A front part that is not the whole is not the whole with more behind it. -/
theorem prefix_ne_append {whole part : List α} (front : part <+: whole) (short : part ≠ whole)
    (rest : List α) : part ≠ whole ++ rest := by
  intro same
  have bound := front.length_le
  have length := congrArg List.length same
  rw [List.length_append] at length
  exact short (front.eq_of_length (by omega))

/-- Two phases in a row follow the two plans in a row. The second plan may depend on the bytes that
the first phase took. -/
theorem Follows.andThen {step : Checked (Except StreamError α × τ)}
    {next : α → τ → Checked (Except StreamError β × τ)} {further : Bytes → Bytes → List Entry}
    {post' : Bytes → Bytes → β → τ → Prop}
    (first : Follows view step before count plan post)
    (second : ∀ taken value middle, taken.length = count → post taken value middle →
      Follows view (next value middle) (view middle) more (further taken) (post' taken)) :
    Follows view (step.andThen next) before (count + more)
      (fun wanted => plan (wanted.take count) ++ further (wanted.take count) (wanted.drop count))
      (fun wanted => post' (wanted.take count) (wanted.drop count)) := by
  obtain ⟨reply, middle, given, stored, run, followed, success, failure⟩ := first
  rw [run]
  cases reply with
  | error error =>
    -- A first phase that failed leaves the second out.
    rw [Checked.error_andThen]
    apply Follows.failed view followed.moved (Nat.le_add_right_of_le followed.length)
    intro wanted completes
    -- The first phase would have taken the front of whatever is taken in all.
    have front : Completes count given (wanted.take count) := by
      have length := completes.length
      refine ⟨List.length_take_of_le (by omega), ?_⟩
      exact List.prefix_take_iff.mpr ⟨completes.front, followed.length⟩
    have upto := followed.stored _ front
    exact ⟨upto.trans (List.prefix_append _ _),
      prefix_ne_append upto (failure error rfl _ front) _⟩
  | ok value =>
    -- A first phase that succeeded has taken its share, and the second goes on from there.
    obtain ⟨all, rfl, holds⟩ := success value rfl
    obtain ⟨reply, after, given', stored', run', followed', success', failure'⟩ :=
      second given value middle all holds
    -- What is wanted in all is what the first phase took, and then what the second one wants.
    have cut : ∀ wanted, Completes (count + more) (given ++ given') wanted →
        wanted.take count = given ∧ Completes more given' (wanted.drop count) := by
      rintro wanted ⟨length, rest, rfl⟩
      rw [List.append_assoc, ← all, List.take_left, List.drop_left]
      refine ⟨rfl, ?_, List.prefix_append _ _⟩
      rw [List.append_assoc, List.length_append] at length
      omega
    rw [Checked.ok_andThen, run']
    refine ⟨reply, after, given ++ given', plan given ++ stored', rfl,
      ⟨followed.moved.trans followed'.moved, ?_, ?_⟩, ?_, ?_⟩
    · have := followed'.length
      rw [List.length_append]
      omega
    · intro wanted completes
      obtain ⟨front, back⟩ := cut wanted completes
      rw [front]
      exact (List.prefix_append_right_inj _).mpr (followed'.stored _ back)
    · intro value answer
      obtain ⟨all', rfl, holds'⟩ := success' value answer
      dsimp only
      rw [← all, List.take_left, List.drop_left]
      exact ⟨by rw [List.length_append, all'], rfl, holds'⟩
    · intro error answer wanted completes
      obtain ⟨front, back⟩ := cut wanted completes
      dsimp only
      rw [front]
      intro same
      exact failure' error answer _ back (List.append_cancel_left same)

/-- A step that moves nothing may go before one that follows a plan, if there is anything to do. -/
theorem Follows.prelude {step : Checked (Except StreamError α × τ)}
    {next : α → τ → Checked (Except StreamError β × τ)} {post' : Bytes → β → τ → Prop}
    {reply : Except StreamError α} {middle : τ} (run : step = .ok (reply, middle))
    (still : Moved before (view middle) [] [])
    (some : ∀ wanted, wanted.length = count → plan wanted ≠ [])
    (second : ∀ value, reply = .ok value →
      Follows view (next value middle) (view middle) count plan post') :
    Follows view (step.andThen next) before count plan post' := by
  rw [run]
  cases reply with
  | error error => exact .starved view still (Nat.zero_le _) some
  | ok value =>
    obtain ⟨reply, after, given, stored, run', followed, ends⟩ := second value rfl
    rw [Checked.ok_andThen]
    exact ⟨reply, after, given, stored, run',
      ⟨still.trans followed.moved, followed.length, followed.stored⟩, ends⟩

/-- A plan is followed whatever is made of the last state, if the devices are the same. -/
theorem Follows.map {τ' : Type} {view' : τ' → Devices σ ρ}
    {step : Checked (Except StreamError α × τ)} (follows : Follows view step before count plan post)
    (make : τ → τ') (same : ∀ state, view' (make state) = view state) :
    Follows view' (step.map fun (reply, state) => (reply, make state)) before count plan
      (fun _ _ _ => True) := by
  obtain ⟨reply, after, given, stored, run, followed, success, failure⟩ := follows
  refine ⟨reply, make after, given, stored, by rw [run]; rfl, ?_, ?_, failure⟩
  · exact ⟨(same after).symm ▸ followed.moved, followed.length, followed.stored⟩
  · intro value answer
    obtain ⟨all, whole, _⟩ := success value answer
    exact ⟨all, whole, trivial⟩

end Phases

end SealedStream
