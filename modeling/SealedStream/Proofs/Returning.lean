import SealedStream.Proofs.Loops
import SealedStream.Proofs.RangeReading

/-!
# Steps that come back

A checked step that meets no trap comes back. `Checked.Returns` says so together with what holds of
the value, and `Checked.Ends` the same of a step that succeeds or fails; their rules put steps
together in the order in which they run. The devices here may hand out any bytes, take any part of
what they are offered and fail at any time; all that is asked of them is that each single call comes
back. Then the loops over them come back too, and what every call keeps, they keep
(`Source.Answers.gather`), and so do the readers that stand on one another (`RangeReader.answers`).
-/
namespace SealedStream

open Layout

namespace Checked

/-- The step comes back, with a value that meets the condition. -/
def Returns {α : Type} (step : Checked α) (post : α → Prop) : Prop :=
  ∃ value, step = .ok value ∧ post value

/-- The step comes back. If it succeeds, its value and the state meet one condition, and if it fails,
its error meets another. -/
def Ends {τ ε α : Type} (step : Checked (Except ε α × τ)) (success : α → τ → Prop)
    (failure : ε → Prop) : Prop :=
  ∃ reply state, step = .ok (reply, state) ∧ (∀ value, reply = .ok value → success value state) ∧
    ∀ error, reply = .error error → failure error

section

variable {τ ε α β : Type} {post : α → Prop} {further : β → Prop} {success : α → τ → Prop}
  {final : β → τ → Prop} {failure : ε → Prop}

theorem Returns.pure {value : α} (holds : post value) : Returns (.ok value) post :=
  ⟨value, rfl, holds⟩

/-- What follows a step has to come back only from what the step can come to. -/
theorem Returns.bind {step : Checked α} {next : α → Checked β} (first : step.Returns post)
    (second : ∀ value, step = .ok value → post value → (next value).Returns further) :
    (step >>= next).Returns further := by
  obtain ⟨value, run, holds⟩ := first
  rw [run]
  exact second value run holds

theorem Ends.succeeded {value : α} {state : τ} (holds : success value state) :
    Ends (.ok (.ok value, state)) success failure := by
  refine ⟨_, _, rfl, ?_, ?_⟩
  · intro _ same
    cases same
    exact holds
  · intro _ same
    cases same

theorem Ends.failed {error : ε} {state : τ} (holds : failure error) :
    Ends (.ok ((.error error : Except ε α), state)) success failure := by
  refine ⟨_, _, rfl, ?_, ?_⟩
  · intro _ same
    cases same
  · intro _ same
    cases same
    exact holds

theorem Ends.bind {step : Checked β} {next : β → Checked (Except ε α × τ)}
    (first : step.Returns further)
    (second : ∀ value, step = .ok value → further value → (next value).Ends success failure) :
    (step >>= next).Ends success failure := by
  obtain ⟨value, run, holds⟩ := first
  rw [run]
  exact second value run holds

/-- The second of two steps has to end only after a success of the first. -/
theorem Ends.andThen {first : Checked (Except ε α × τ)}
    {second : α → τ → Checked (Except ε β × τ)} (ends : first.Ends success failure)
    (goes_on : ∀ value state, success value state → (second value state).Ends final failure) :
    (first.andThen second).Ends final failure := by
  obtain ⟨reply, state, run, succeeds, fails⟩ := ends
  rw [run]
  cases reply with
  | ok value => exact goes_on value state (succeeds value rfl)
  | error error => exact .failed (fails error rfl)

end

theorem add_returns {a b : Nat} (fits : a + b < offsetLimit) :
    (add a b).Returns (· = a + b) :=
  ⟨_, add_eq_ok fits, rfl⟩

theorem sub_returns {a b : Nat} (le : b ≤ a) : (sub a b).Returns (· = a - b) :=
  ⟨_, sub_eq_ok le, rfl⟩

end Checked

namespace Scratch

theorem fill_returns (scratch : Scratch) {position : Nat} {content : Bytes}
    (fits : position + content.length ≤ chunkLength) :
    (scratch.fill position content).Returns fun _ => True :=
  ⟨_, dif_pos fits, trivial⟩

theorem slice_returns (scratch : Scratch) {start stop : Nat} (ordered : start ≤ stop)
    (inside : stop ≤ chunkLength) :
    (scratch.slice start stop).Returns fun bytes => bytes.length = stop - start := by
  refine ⟨_, if_pos ⟨ordered, inside⟩, ?_⟩
  dsimp only
  rw [List.length_drop, List.length_take, scratch.length_eq, Nat.min_eq_left inside]

end Scratch

/-! ### Loops of reads -/

namespace Source

variable {ρ : Type} [Source ρ] {Inv : ρ → Prop} {source : ρ}

/-- From every state with the invariant a read comes back, and to such a state. -/
def Answers (Inv : ρ → Prop) : Prop :=
  ∀ source room, Inv source → (read source room).Returns fun (_, next) => Inv next

/-- Reads with a buffer of each given length in turn, whatever has come of the reads before. -/
def readEach (source : ρ) : List Nat → Checked (List (Except IoError Bytes) × ρ)
  | [] => return ([], source)
  | room :: rooms => do
    let (reply, next) ← read source room
    let (replies, last) ← readEach next rooms
    return (reply :: replies, last)

namespace Answers

theorem of_call (answers : Answers Inv) {room : Nat} {reply : Except IoError Bytes} {next : ρ}
    (start : Inv source) (call : Source.read source room = .ok (reply, next)) : Inv next := by
  obtain ⟨_, answer, after⟩ := answers source room start
  cases call.symm.trans answer
  exact after

theorem ne_trap (answers : Answers Inv) {room : Nat} {trap : Trap} (start : Inv source) :
    Source.read source room ≠ .error trap := by
  intro call
  obtain ⟨_, answer, _⟩ := answers source room start
  cases call.symm.trans answer

theorem gather (answers : Answers Inv) (start : Inv source) (need room : Nat) :
    (Source.gather source need room).Returns fun (_, last) => Inv last := by
  -- The induction follows the loop: it has enough, traps, sees the end, goes on, retries or fails.
  fun_induction Source.gather source need room with
  | case1 source => exact ⟨_, rfl, start⟩
  | case2 source need room _ trap call => exact absurd call (answers.ne_trap start)
  | case3 source need room _ next call => exact ⟨_, rfl, answers.of_call start call⟩
  | case4 source need room _ bytes next call _ trap inner ih =>
    obtain ⟨_, run, _⟩ := ih (answers.of_call start call)
    cases inner.symm.trans run
  | case5 source need room _ bytes next call _ rest last inner ih =>
    obtain ⟨_, run, after⟩ := ih (answers.of_call start call)
    cases inner.symm.trans run
    exact ⟨_, rfl, after⟩
  | case6 source need room _ error next call _ ih => exact ih (answers.of_call start call)
  | case7 source need room _ error next call _ => exact ⟨_, rfl, answers.of_call start call⟩

theorem skip (answers : Answers Inv) (start : Inv source) (count : Nat) :
    (Source.skip source count).Returns fun (_, last) => Inv last := by
  fun_induction Source.skip source count with
  | case1 source => exact ⟨_, rfl, start⟩
  | case2 source count _ trap call => exact absurd call (answers.ne_trap start)
  | case3 source count _ next call => exact ⟨_, rfl, answers.of_call start call⟩
  | case4 source count _ bytes next call _ trap inner ih =>
    obtain ⟨_, run, _⟩ := ih (answers.of_call start call)
    cases inner.symm.trans run
  | case5 source count _ bytes next call _ rest last inner ih =>
    obtain ⟨_, run, after⟩ := ih (answers.of_call start call)
    cases inner.symm.trans run
    exact ⟨_, rfl, after⟩
  | case6 source count _ error next call _ ih => exact ih (answers.of_call start call)
  | case7 source count _ error next call _ => exact ⟨_, rfl, answers.of_call start call⟩

theorem readEach (answers : Answers Inv) (start : Inv source) (rooms : List Nat) :
    (Source.readEach source rooms).Returns fun (_, last) => Inv last := by
  induction rooms generalizing source with
  | nil => exact .pure start
  | cons room rooms ih =>
    apply Checked.Returns.bind (answers source room start)
    intro (reply, next) _ after
    apply Checked.Returns.bind (ih after)
    intro (replies, last) _ end_state
    exact .pure end_state

end Answers

theorem answers_of_total {ρ : Type} [TotalSource ρ] : Answers (fun _ : ρ => True) := by
  intro source room _
  obtain ⟨reply, next, call⟩ := TotalSource.read_answers source room
  exact ⟨(reply, next), call, trivial⟩

end Source

/-! ### Parts of a store -/

/-- A part of a store that lies in order below the offset limit. -/
structure Span.InBounds {σ : Type} (span : Span σ) : Prop where
  ordered : span.position ≤ span.stop
  fits : span.stop < offsetLimit

/-- Every read of a store comes back, with bytes, with nothing or with an error. -/
def ReadableStore.Responds (σ : Type) [ReadableStore σ] : Prop :=
  ∀ (store : σ) (offset room : Nat), ∃ reply next, readAt store offset room = .ok (reply, next)

theorem TotalStore.responds {σ : Type} [TotalStore σ] : ReadableStore.Responds σ :=
  TotalStore.readAt_answers

theorem Span.answers {σ : Type} [ReadableStore σ] (responds : ReadableStore.Responds σ) :
    Source.Answers (InBounds : Span σ → Prop) := by
  intro span room ⟨ordered, fits⟩
  show (span.read room).Returns _
  apply Checked.Returns.bind (Checked.sub_returns ordered)
  rintro _ _ rfl
  dsimp only
  split
  · exact .pure ⟨ordered, fits⟩
  · obtain ⟨reply, store, call⟩ := responds span.store span.position
      (min room (span.stop - span.position))
    rw [call, Checked.ok_bind]
    cases reply with
    | error error => exact .pure ⟨ordered, fits⟩
    | ok bytes =>
      have short := ReadableStore.length_le_room call
      apply Checked.Returns.bind (Checked.add_returns (by omega))
      rintro _ _ rfl
      exact .pure ⟨by dsimp only; omega, fits⟩

/-- Reading on within a store that is cut off at `stop`. -/
structure Probe.InBounds {σ : Type} (stop : Nat) (probe : Probe (Clipped σ)) : Prop where
  cut : probe.store.stop = stop
  ordered : probe.start + probe.taken ≤ stop

theorem Probe.answers {σ : Type} [TotalStore σ] {stop : Nat} (fits : stop < offsetLimit) :
    Source.Answers (InBounds stop : Probe (Clipped σ) → Prop) := by
  intro probe room ⟨cut, ordered⟩
  show (probe.read room).Returns _
  apply Checked.Returns.bind (Checked.add_returns (by omega))
  rintro _ _ rfl
  show ((Clipped.readAt probe.store _ room) >>= _).Returns _
  unfold Clipped.readAt
  split
  · exact .pure ⟨cut, ordered⟩
  · obtain ⟨reply, store, call⟩ := TotalStore.readAt_answers probe.store.store
      (probe.start + probe.taken) (min room (probe.store.stop - (probe.start + probe.taken)))
    rw [call, Checked.ok_bind]
    cases reply with
    | error error => exact .pure ⟨cut, ordered⟩
    | ok bytes =>
      have short := ReadableStore.length_le_room call
      exact .pure ⟨cut, by dsimp only; omega⟩

/-- Reading a buffer full of a cut-off store comes back, and the store is still cut off there. -/
theorem Clipped.readFullAt_returns {σ : Type} [TotalStore σ] (clipped : Clipped σ) {offset : Nat}
    (inside : offset ≤ clipped.stop) (fits : clipped.stop < offsetLimit) (room : Nat) :
    (ReadableStore.readFullAt clipped offset room).Returns fun (gathered, next) =>
      gathered.bytes.length ≤ room ∧ next.stop = clipped.stop := by
  have start : Probe.InBounds clipped.stop (⟨clipped, offset, 0⟩ : Probe (Clipped σ)) :=
    ⟨rfl, inside⟩
  apply Checked.Returns.bind ((Probe.answers fits).gather start room room)
  intro (gathered, probe) gathering after
  exact .pure ⟨Source.length_gather_le gathering, after.cut⟩

/-! ### Readers -/

theorem Frame.long_of_verify {frame : Bytes} {sum : Checksum} (good : verify frame = .ok sum) :
    headerLength < frame.length := by
  obtain ⟨payload, some, rfl, _⟩ := verify_eq_ok_iff.mp good
  have positive := List.length_pos_iff.mpr some
  rw [length_ofPayload]
  omega

namespace SizedDecoder

variable {ρ : Type} [Source ρ] {Inv : ρ → Prop} (reads : Source.Answers Inv)
  {decoder : SizedDecoder ρ} (start : Inv decoder.source)

include reads start

theorem load_returns : decoder.load.Returns fun (_, next) => Inv next.source := by
  apply Checked.Returns.bind (reads.gather start _ _)
  intro (gathered, source) gathering after
  have fits := Source.length_gather_le gathering
  apply Checked.Returns.bind (decoder.scratch.fill_returns (by omega))
  intro scratch _ _
  dsimp only
  split
  · exact .pure after
  · apply Checked.Returns.bind (scratch.slice_returns (Nat.zero_le _) fits)
    intro frame _ length
    split
    · exact .pure after
    next good =>
      -- A frame that verifies has a payload behind its header, which is what is handed out.
      have long := Frame.long_of_verify good
      rw [length] at long
      apply Checked.Returns.bind (Checked.sub_returns (by omega))
      rintro _ _ rfl
      apply Checked.Returns.bind (scratch.slice_returns (by omega) (by omega))
      intro pending _ _
      apply Checked.Returns.bind (Checked.sub_returns (by omega))
      intro remaining _ _
      exact .pure after

theorem fetch_returns : decoder.fetch.Returns fun (_, next) => Inv next.source := by
  apply Checked.Returns.bind (load_returns reads start)
  intro (reply, next) _ after
  cases reply with
  | ok count => exact .pure after
  | error error => exact .pure after

omit start in
theorem answers : Source.Answers fun decoder : SizedDecoder ρ => Inv decoder.source := by
  intro decoder room start
  show (decoder.read room).Returns _
  unfold read
  split
  · exact .pure start
  · split
    · exact .pure start
    · split
      · exact .pure start
      · apply Checked.Returns.bind (fetch_returns reads start)
        intro (reply, next) _ after
        cases reply with
        | ok count => exact .pure after
        | error error => exact .pure after

end SizedDecoder

namespace Window

variable {ρ : Type} [Source ρ] {Inv : ρ → Prop} (reads : Source.Answers Inv)
  {window : Window ρ} (start : Inv window.inner)

include reads start

theorem discard_returns : window.discard.Returns fun (_, next) => Inv next.inner := by
  unfold discard
  split
  · exact .pure start
  · apply Checked.Returns.bind (reads.skip start _)
    intro (reply, inner) _ after
    cases reply with
    | ok skipped => exact .pure after
    | error cause => exact .pure after

theorem readInside_returns (room : Nat) :
    (window.readInside room).Returns fun (_, next) => Inv next.inner := by
  unfold readInside
  split
  · exact .pure start
  · apply Checked.Returns.bind (reads _ _ start)
    intro (reply, inner) call after
    cases reply with
    | error error => exact .pure after
    | ok bytes =>
      have short := Source.length_le_room call
      apply Checked.Returns.bind (Checked.sub_returns (by omega))
      intro remaining _ _
      exact .pure after

omit start in
theorem answers : Source.Answers fun window : Window ρ => Inv window.inner := by
  intro window room start
  show (window.read room).Returns _
  apply Checked.Returns.bind (discard_returns reads start)
  intro (reply, next) _ after
  cases reply with
  | error cause => exact .pure after
  | ok _ => exact readInside_returns reads after room

end Window

namespace RangeReader

variable {σ : Type}

/-- Every read of a range reader comes back, as long as the part of the store that it decodes lies
below the offset limit. -/
theorem answers [ReadableStore σ] (responds : ReadableStore.Responds σ) :
    Source.Answers fun reader : RangeReader σ => reader.decoder.source.InBounds := by
  intro reader room start
  have decoding := SizedDecoder.answers (Span.answers responds)
  show (reader.read room).Returns _
  cases reader with
  | whole decoder =>
    apply Checked.Returns.bind (decoding decoder room start)
    intro (reply, next) _ after
    exact .pure after
  | windowed window =>
    apply Checked.Returns.bind (Window.answers decoding window room start)
    intro (reply, next) _ after
    exact .pure after

/-- Opening a reader comes back, whatever the range. -/
theorem create_returns (store : σ) {base size : Nat} (start stop : Nat) (scratch : Scratch)
    (fits : base + encodedLength size < offsetLimit) :
    (create store base start stop size scratch).Returns fun reply =>
      ∀ reader, reply = .ok reader → reader.decoder.source.InBounds := by
  unfold create
  split
  · exact .pure fun _ same => (by cases same)
  · have inside : start ≤ size := by omega
    have bounds := Nat.add_le_add_left (chunkStart_le start size inside) base
    rw [SizedDecoder.ofStore_eq_ok store scratch inside fits, Checked.ok_bind]
    dsimp only
    split
    · refine .pure ?_
      rintro _ ⟨⟩
      exact ⟨bounds, fits⟩
    · refine .pure ?_
      rintro _ ⟨⟩
      exact ⟨bounds, fits⟩

end RangeReader

/-! ### Loops of writes -/

namespace Cursor

variable {σ : Type} [TotalStore σ]

/-- A write moves a cursor on by as many bytes as it has taken. -/
theorem advances : Sink.Tracks
    (fun (cursor : Cursor σ) room => cursor.offset + room < offsetLimit)
    (fun first last bytes => last.offset = first.offset + bytes.length) where
  still _ := rfl
  trans moved further := by rw [further, moved, List.length_append, Nat.add_assoc]
  answers fits _ short := write_answers _ _ (by omega)
  took {cursor next room bytes count} fits _ short call := by
    have bound := Sink.taken_le_length call
    have place : next.offset = cursor.offset + count := offset_of_write call
    exact ⟨by rw [place, List.length_take_of_le bound], by omega⟩
  failed {cursor next room bytes error} fits _ _ call := by
    have place : next.offset = cursor.offset := offset_of_write call
    exact ⟨place, by rw [place]; exact fits⟩

theorem push_returns (cursor : Cursor σ) (bytes : Bytes)
    (fits : cursor.offset + bytes.length < offsetLimit) :
    (Sink.push cursor bytes).Returns fun (pushed, last) =>
      pushed.stall = none → last.offset = cursor.offset + bytes.length := by
  obtain ⟨pushed, last, run, place, _, all, _⟩ := advances.push cursor fits (Nat.le_refl _)
  refine ⟨_, run, fun none => ?_⟩
  rw [place, all none, List.take_length]

/-- Writing all bytes to a cursor ends. If it succeeds, the cursor is behind them. -/
theorem writeAll_ends (cursor : Cursor σ) (bytes : Bytes)
    (fits : cursor.offset + bytes.length < offsetLimit) :
    (Sink.writeAll cursor bytes).Ends (fun _ last => last.offset = cursor.offset + bytes.length)
      fun _ => True := by
  apply Checked.Ends.bind (cursor.push_returns bytes fits)
  intro (pushed, last) _ place
  refine ⟨_, _, rfl, ?_, fun _ _ => trivial⟩
  intro _ whole
  exact place (Pushed.stall_eq_none_iff.mp whole)

end Cursor

theorem WritableStore.writeAllAt_returns {σ : Type} [TotalStore σ] (store : σ) (offset : Nat)
    (bytes : Bytes) (fits : offset + bytes.length < offsetLimit) :
    (writeAllAt store offset bytes).Returns fun _ => True := by
  apply Checked.Returns.bind (Cursor.push_returns ⟨store, offset⟩ bytes fits)
  intro (pushed, cursor) _ _
  exact .pure trivial

theorem TotalSink.writeAll_returns {κ : Type} [TotalSink κ] (sink : κ) (bytes : Bytes) :
    (Sink.writeAll sink bytes).Returns fun _ => True := by
  have tracks : Sink.Tracks (fun (_ : κ) _ => True) (fun _ _ _ => True) := {
    still := fun _ => trivial
    trans := fun _ _ => trivial
    answers := fun _ _ _ => write_answers _ _
    took := fun _ _ _ _ => ⟨trivial, trivial⟩
    failed := fun _ _ _ _ => ⟨trivial, trivial⟩ }
  obtain ⟨pushed, last, run, _⟩ := tracks.push sink trivial (Nat.le_refl bytes.length)
  rw [Sink.writeAll, run]
  exact .pure trivial

end SealedStream
