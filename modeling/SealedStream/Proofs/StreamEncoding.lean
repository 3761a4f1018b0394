import SealedStream.Proofs.Canonicity
import SealedStream.Proofs.Contracts
import SealedStream.Reader.StreamEncoder
import SealedStream.Writer.Sealing

/-!
# Encoding what a source gives

One encoder knows how much to take from its source and writes to a sink, the other goes on until its
source ends and is read from. Either seals payload after payload, so what comes out is the image of
the data by induction along its chunks.
-/
namespace SealedStream

open Layout

/-! ### A known number of bytes -/

namespace Sealing

variable {ρ κ : Type} [Source ρ] [Sink κ]
variable {Able : κ → Nat → Prop} {Moved : κ → κ → Bytes → Prop}

/-- With a sink that nothing stalls, a payload that the source has goes out as a frame. -/
theorem chunk_of_supplies (perfect : Sink.Perfect Able Moved) (sealing : Sealing ρ κ)
    {data : Bytes} {length room : Nat} (supplies : Source.Supplies sealing.source data)
    (enough : length ≤ data.length) (small : length ≤ payloadLength)
    (able : Able sealing.sink room) (fits : headerLength + length ≤ room) :
    ∃ next, sealing.chunk length = .ok (.ok (), next) ∧
      Moved sealing.sink next.sink (Frame.ofPayload (data.take length)) ∧
      Able next.sink (room - (headerLength + length)) ∧
      Source.Supplies next.source (data.drop length) := by
  obtain ⟨source, reading, after⟩ := supplies.readFull length
  have taken : (data.take length).length = length := List.length_take_of_le enough
  obtain ⟨filled, front, back, filling, view, header⟩ :=
    sealing.scratch.fill_payload (data.take length) (by rwa [taken])
  obtain ⟨scratch, sealed⟩ := Scratch.sealFrame_of_bytes header view
  rw [taken] at sealed
  have frame : (Frame.ofPayload (data.take length)).length = headerLength + length := by
    rw [Frame.length_ofPayload, taken]
  obtain ⟨sink, writing, moved, left⟩ := perfect.writeAll able (Nat.le_trans (Nat.le_of_eq frame) fits)
  rw [frame] at left
  have outcome : Gathered.outcome ⟨data.take length, none⟩ length .unfilledBuffer = .ok () := by
    rw [Gathered.outcome]
    exact if_neg (Nat.not_lt_of_le (Nat.le_of_eq taken.symm))
  refine ⟨⟨source, sink, scratch⟩, ?_, moved, left, after⟩
  rw [chunk, reading, Checked.ok_bind]
  dsimp only
  rw [filling, Checked.ok_bind, outcome]
  dsimp only
  rw [sealed, Checked.ok_bind]
  dsimp only
  rw [writing]
  rfl

/-- With a sink that nothing stalls, as many bytes as are asked for go out as their image, and what
the source has behind them is left to it. -/
theorem run_of_supplies (perfect : Sink.Perfect Able Moved) (sealing : Sealing ρ κ)
    {data rest : Bytes} {room : Nat} (supplies : Source.Supplies sealing.source (data ++ rest))
    (able : Able sealing.sink room) (fits : encodedLength data.length ≤ room) :
    ∃ last, sealing.run data.length = .ok (.ok (), last) ∧
      Moved sealing.sink last.sink (Image.encode data) ∧ Source.Supplies last.source rest := by
  induction data using Image.chunk_induction generalizing sealing room with
  | empty =>
    refine ⟨sealing, ?_, ?_, supplies⟩
    · rw [run]
      rfl
    · rw [Image.encode_nil]
      exact perfect.still sealing.sink
  | chunk payload data nonempty small full ih =>
    have positive : 0 < payload.length := List.length_pos_iff.mpr nonempty
    have length : (payload ++ data).length = payload.length + data.length := List.length_append
    have first : min (payload ++ data).length payloadLength = payload.length := by
      rcases full with full | rfl
      · omega
      · rw [List.append_nil]
        exact Nat.min_eq_left small
    have whole := encodedLength_first (payload ++ data).length (by omega)
    have others : (payload ++ data).length - payload.length = data.length := by omega
    rw [first, others] at whole
    rw [List.append_assoc] at supplies
    obtain ⟨next, sealed, moved, left, after⟩ := sealing.chunk_of_supplies perfect supplies
      (by rw [List.length_append]; omega) small able (by omega)
    rw [List.take_left] at moved
    rw [List.drop_left] at after
    obtain ⟨last, run, further, final⟩ := ih next after left (by omega)
    refine ⟨last, ?_, ?_, final⟩
    · rw [Sealing.run, if_neg (by omega)]
      dsimp only
      rw [first, sealed, Checked.ok_andThen, others, run]
    · rw [Image.encode_append_block nonempty small full]
      exact perfect.trans moved further

end Sealing

/-! ### Everything a source has -/

namespace StreamEncoder

variable {ρ : Type} [Source ρ]

/-- What a source has behind the frame that waits; nothing once the last payload has been read. -/
def Behind (encoder : StreamEncoder ρ) (behind : Bytes) : Prop :=
  ∃ data, Source.Supplies encoder.source data ∧ behind = Image.encode data ∧
    (encoder.finished = true → data = [])

/-- The encoder once its source has been read for a payload. What was gathered for it becomes a frame,
unless a read failed. -/
def advance (encoder : StreamEncoder ρ) (source : ρ) (scratch : Scratch) (gathered : Gathered) :
    Except FinalError Unit × StreamEncoder ρ :=
  match gathered.failure with
  | some cause => (.error cause, { encoder with source, scratch })
  | none =>
    (.ok (), { encoder with
      source
      scratch
      pending := if gathered.bytes = [] then encoder.pending else Frame.ofPayload gathered.bytes
      finished := encoder.finished || decide (gathered.bytes.length < payloadLength) })

/-- A fetch is a gathering and a sealing. -/
theorem fetch_of_gather (encoder : StreamEncoder ρ) {gathered : Gathered} {source : ρ}
    (gathering : Source.readFull encoder.source payloadLength = .ok (gathered, source)) :
    ∃ scratch, encoder.fetch = .ok (encoder.advance source scratch gathered) := by
  obtain ⟨bytes, failure⟩ := gathered
  have fits : bytes.length ≤ payloadLength := Source.length_gather_le gathering
  obtain ⟨filled, front, back, filling, view, header⟩ := encoder.scratch.fill_payload bytes fits
  obtain ⟨scratch, sealed⟩ := Scratch.sealFrame_of_bytes header view
  rw [fetch, gathering, Checked.ok_bind]
  dsimp only
  rw [filling, Checked.ok_bind]
  cases failure with
  | some cause => exact ⟨filled, rfl⟩
  | none =>
    dsimp only
    by_cases none : bytes = []
    · refine ⟨filled, ?_⟩
      rw [if_pos (by rw [none]; rfl), advance]
      dsimp only
      rw [if_pos none]
      rfl
    · refine ⟨scratch, ?_⟩
      rw [if_neg (by simpa using none), sealed, Checked.ok_bind, advance]
      dsimp only
      rw [if_neg none]
      rfl

/-- A fetch takes a payload from the source and makes its frame wait. A payload that is not full is
the last. -/
theorem fetch_of_supplies (encoder : StreamEncoder ρ) (unfinished : encoder.finished = false)
    {data : Bytes} (supplies : Source.Supplies encoder.source data) (some : data ≠ []) :
    ∃ loaded, encoder.fetch = .ok (.ok (), loaded) ∧
      loaded.pending = Frame.ofPayload (data.take payloadLength) ∧
      Behind loaded (Image.encode (data.drop payloadLength)) := by
  obtain ⟨source, reading, after⟩ := supplies.readFull payloadLength
  obtain ⟨scratch, fetching⟩ := encoder.fetch_of_gather reading
  have nonempty : data.take payloadLength ≠ [] := by simpa [payloadLength] using some
  refine ⟨_, fetching, if_neg nonempty, _, after, rfl, ?_⟩
  dsimp only
  rw [unfinished, Bool.false_or, decide_eq_true_eq, List.length_take]
  intro short
  exact List.drop_of_length_le (by omega)

/-- At the end of the source, a fetch leaves nothing waiting. -/
theorem fetch_of_end (encoder : StreamEncoder ρ) (supplies : Source.Supplies encoder.source []) :
    ∃ source scratch, encoder.fetch = .ok (.ok (),
      { encoder with source, scratch, finished := true }) := by
  obtain ⟨source, reading, _⟩ := supplies.readFull payloadLength
  obtain ⟨scratch, fetching⟩ := encoder.fetch_of_gather reading
  refine ⟨source, scratch, fetching.trans ?_⟩
  cases encoder with
  | mk _ _ _ finished => cases finished <;> rfl

theorem Behind.load {encoder : StreamEncoder ρ} {behind : Bytes} (inv : Behind encoder behind)
    (waiting : encoder.pending = []) (room : Nat) :
    (behind = [] ∧ ∃ next, encoder.read room = .ok (.ok [], next)) ∨
    (∃ loaded rest, encoder.read room = read loaded room ∧ loaded.pending ≠ [] ∧
      behind = loaded.pending ++ rest ∧ Behind loaded rest) := by
  obtain ⟨data, supplies, rfl, last⟩ := inv
  by_cases finished : encoder.finished
  · refine .inl ⟨by rw [last finished, Image.encode_nil], encoder, ?_⟩
    simp [read, waiting, finished, pure, Except.pure]
  by_cases none : data = []
  · subst none
    obtain ⟨source, scratch, fetching⟩ := encoder.fetch_of_end supplies
    refine .inl ⟨Image.encode_nil, (hand ⟨source, scratch, [], true⟩ room).2, ?_⟩
    simp [read, waiting, finished, fetching, hand, pure, Except.pure]
  · obtain ⟨loaded, fetching, frame, after⟩ :=
      encoder.fetch_of_supplies (Bool.eq_false_iff.mpr finished) supplies none
    have some : loaded.pending ≠ [] := by
      apply List.length_pos_iff.mp
      rw [frame, Frame.length_ofPayload, headerLength]
      omega
    refine .inr ⟨loaded, _, ?_, some, ?_, after⟩
    · simp [read, waiting, finished, fetching, some]
    · rw [frame]
      exact Image.encode_of_ne_nil none

/-- Reading on a stream encoder gives the image of all that its source has. -/
theorem yields {source : ρ} {data : Bytes} (scratch : Scratch)
    (supplies : Source.Supplies source data) :
    Source.Yields (create source scratch) (Image.encode data) none := by
  have start : Behind (create source scratch) (Image.encode data) :=
    ⟨data, supplies, rfl, fun finished => (by cases finished)⟩
  refine Source.Yields.of_pending pending Behind ?_ ?_ start
  · rintro encoder behind room inv waiting
    refine ⟨(encoder.hand room).2, ?_, rfl, inv⟩
    show encoder.read room = _
    simp [read, waiting, hand, pure, Except.pure]
  · intro encoder behind room inv waiting
    exact inv.load waiting room

end StreamEncoder

end SealedStream
