import SealedStream.Proofs.Contracts
import SealedStream.Proofs.Sizes
import SealedStream.Store.RangeCopy

/-!
# Copying a range piece by piece

A range is a row of pieces, each from one chunk, and copying it is copying one piece after the other
(`RangeCopy.run_eq_pieces`). What becomes of a piece is decided by the frame of its chunk alone, so
`Image.copied` says without buffers and devices what a copy writes and how it ends, whatever the
store holds; `RangeCopy.run_copied` is the copy itself.
-/
namespace SealedStream

open Layout

/-- The bytes of an image where the frame of a chunk should be. -/
def Image.chunk (image : Bytes) (index : Nat) : Bytes :=
  (image.drop (chunkLength * index)).take chunkLength

/-- A part of the payload of one chunk. -/
structure Piece where
  index : Nat
  start : Nat
  stop : Nat

namespace Piece

/-- The chunks from `index` up to but not including `last` to their ends, the first of them from
`start` on. -/
def chunks (index last start : Nat) : List Piece :=
  if index < last then ⟨index, start, payloadLength⟩ :: chunks (index + 1) last 0 else []
termination_by last - index

/-- The pieces of a logical range. -/
def ofRange (start stop : Nat) : List Piece :=
  if stop ≤ start then []
  else if chunkIndex start = chunkIndex stop then
    [⟨chunkIndex stop, offsetInChunk start, offsetInChunk stop⟩]
  else
    chunks (chunkIndex start) (chunkIndex stop) (offsetInChunk start) ++
      if 0 < offsetInChunk stop then [⟨chunkIndex stop, 0, offsetInChunk stop⟩] else []

/-- The bytes of the piece, if the frame of its chunk is sound and reaches as far. -/
def cut (piece : Piece) (frame : Bytes) : Except StreamError Bytes :=
  if frame = [] then .error (.source (.bare .unexpectedEof))
  else
    match Frame.verify frame with
    | .error found => .error (.fault (.damage found))
    | .ok _ =>
      if frame.length < headerLength + piece.stop then .error (.source (.bare .unexpectedEof))
      else .ok (((Frame.payload frame).take piece.stop).drop piece.start)

/-- A piece is cut out of a sealed payload that reaches as far. -/
theorem cut_eq_ok_iff {piece : Piece} {frame bytes : Bytes} :
    piece.cut frame = .ok bytes ↔
      ∃ payload, payload ≠ [] ∧ frame = Frame.ofPayload payload ∧ piece.stop ≤ payload.length ∧
        bytes = (payload.take piece.stop).drop piece.start := by
  constructor
  · intro cut
    unfold Piece.cut at cut
    split at cut
    next => cases cut
    next =>
      split at cut
      next => cases cut
      next sum verified =>
        obtain ⟨nonempty, sealed, _⟩ := Frame.of_verify verified
        split at cut
        next => cases cut
        next long =>
          cases cut
          rw [sealed, Frame.length_ofPayload] at long
          exact ⟨_, nonempty, sealed, by omega, rfl⟩
  · rintro ⟨payload, nonempty, rfl, reaches, rfl⟩
    have verified := Frame.verify_eq_ok_iff.mpr ⟨payload, nonempty, rfl, rfl⟩
    have length := Frame.length_ofPayload payload
    rw [Piece.cut, if_neg (Frame.ofPayload_ne_nil payload), verified]
    dsimp only
    rw [if_neg (by omega), Frame.payload_ofPayload]

theorem mem_chunks {index last start : Nat} {piece : Piece} (small : start ≤ payloadLength)
    (member : piece ∈ chunks index last start) :
    piece.start ≤ piece.stop ∧ piece.index < last := by
  fun_induction chunks index last start with
  | case1 index start inside ih =>
    rcases List.mem_cons.mp member with rfl | member
    · exact ⟨small, inside⟩
    · exact ih (Nat.zero_le _) member
  | case2 => cases member

/-- The pieces of a range are in order and lie in chunks up to that of its end. -/
theorem mem_ofRange {start stop : Nat} {piece : Piece} (member : piece ∈ ofRange start stop) :
    piece.start ≤ piece.stop ∧ piece.index ≤ chunkIndex stop := by
  unfold ofRange at member
  split at member
  next => cases member
  next some =>
    split at member
    next same =>
      obtain rfl := List.mem_singleton.mp member
      have before := offset_split start
      have behind := offset_split stop
      rw [same] at before
      exact ⟨by dsimp only; omega, Nat.le_refl _⟩
    next =>
      rcases List.mem_append.mp member with whole | rest
      · have bounds := mem_chunks (Nat.le_of_lt (offsetInChunk_lt start)) whole
        exact ⟨bounds.1, Nat.le_of_lt bounds.2⟩
      · split at rest
        · obtain rfl := List.mem_singleton.mp rest
          exact ⟨Nat.zero_le _, Nat.le_refl _⟩
        · cases rest

end Piece

/-- What a copy wrote and how it ended. -/
structure Copied where
  written : Bytes
  reply : Except StreamError Unit

namespace Image

/-- Copies pieces of an image up to the first that cannot be cut. -/
def copied (image : Bytes) : List Piece → Copied
  | [] => ⟨[], .ok ()⟩
  | piece :: pieces =>
    match piece.cut (chunk image piece.index) with
    | .error error => ⟨[], .error error⟩
    | .ok bytes => ⟨bytes ++ (copied image pieces).written, (copied image pieces).reply⟩

theorem copied_cons_of_cut {image bytes : Bytes} {piece : Piece} (pieces : List Piece)
    (cut : piece.cut (chunk image piece.index) = .ok bytes) :
    copied image (piece :: pieces) =
      ⟨bytes ++ (copied image pieces).written, (copied image pieces).reply⟩ := by
  rw [copied, cut]

/-- Behind pieces that can all be cut, copying goes on. -/
theorem copied_append {image : Bytes} {front : List Piece} {written : Bytes}
    (whole : copied image front = ⟨written, .ok ()⟩) (back : List Piece) :
    copied image (front ++ back) =
      ⟨written ++ (copied image back).written, (copied image back).reply⟩ := by
  induction front generalizing written with
  | nil =>
    cases whole
    rfl
  | cons piece front ih =>
    cases cut : piece.cut (chunk image piece.index) with
    | error error =>
      rw [copied, cut] at whole
      cases whole
    | ok bytes =>
      rw [copied_cons_of_cut front cut] at whole
      injection whole with joined done
      have rest : copied image front = ⟨(copied image front).written, .ok ()⟩ := by
        rw [← done]
      rw [List.cons_append, copied_cons_of_cut _ cut, ih rest, ← joined, List.append_assoc]

/-- A copy succeeds if every piece can be cut. -/
theorem reply_copied_eq_ok_iff {image : Bytes} {pieces : List Piece} :
    (copied image pieces).reply = .ok () ↔
      ∀ piece ∈ pieces, ∃ bytes, piece.cut (chunk image piece.index) = .ok bytes := by
  induction pieces with
  | nil => exact ⟨fun _ _ member => (by cases member), fun _ => rfl⟩
  | cons piece pieces ih =>
    rw [List.forall_mem_cons, ← ih]
    cases cut : piece.cut (chunk image piece.index) with
    | error error =>
      rw [copied, cut]
      exact ⟨fun done => (by cases done), fun ⟨⟨_, done⟩, _⟩ => (by cases done)⟩
    | ok bytes =>
      rw [copied_cons_of_cut pieces cut]
      exact ⟨fun done => ⟨⟨bytes, rfl⟩, done⟩, fun done => done.2⟩

end Image

namespace RangeCopy

variable {σ κ : Type} [ReadableStore σ] [Sink κ]

/-! ### The copy as a row of pieces -/

/-- Copies one piece after the other. -/
def pieces (copy : RangeCopy σ κ) (base : Nat) :
    List Piece → Checked (Except StreamError Unit × RangeCopy σ κ)
  | [] => .ok (.ok (), copy)
  | piece :: others =>
    (copy.part base piece.index piece.start piece.stop).andThen fun _ copy =>
      copy.pieces base others

theorem pieces_append (copy : RangeCopy σ κ) (base : Nat) (front back : List Piece) :
    copy.pieces base (front ++ back) =
      (copy.pieces base front).andThen fun _ copy => copy.pieces base back := by
  induction front generalizing copy with
  | nil => rfl
  | cons piece front ih => simp only [List.cons_append, pieces, ih, Checked.andThen_assoc]

theorem chunks_eq_pieces (copy : RangeCopy σ κ) (base index last start : Nat) :
    copy.chunks base index last start = copy.pieces base (Piece.chunks index last start) := by
  fun_induction Piece.chunks index last start generalizing copy with
  | case1 index start inside ih =>
    rw [chunks, if_pos inside, pieces]
    congr 1
    funext _ copy
    exact ih copy
  | case2 index start outside =>
    rw [chunks, if_neg outside, pieces]
    rfl

theorem run_eq_pieces (copy : RangeCopy σ κ) (base start stop : Nat) :
    copy.run base start stop = copy.pieces base (Piece.ofRange start stop) := by
  rw [run, Piece.ofRange]
  by_cases none : stop ≤ start
  · rw [if_pos none, if_pos none]
    rfl
  rw [if_neg none, if_neg none]
  by_cases one : chunkIndex start = chunkIndex stop
  · rw [if_pos one, if_pos one, one]
    exact (Checked.andThen_done _).symm
  rw [if_neg one, if_neg one, pieces_append, chunks_eq_pieces]
  congr 1
  funext _ copy
  by_cases rest : 0 < offsetInChunk stop
  · rw [if_pos rest, if_pos rest]
    exact (Checked.andThen_done _).symm
  · rw [if_neg rest, if_neg rest]
    rfl

/-! ### What becomes of a piece -/

section

variable {Held : σ → Prop} {contents : Bytes} {Ready : κ → Prop} {Moved : κ → κ → Bytes → Prop}
  (copy : RangeCopy σ κ) (stable : ReadableStore.Stable Held contents)
  (perfect : Sink.Perfect (fun sink _ => Ready sink) Moved) (held : Held copy.store)
  (ready : Ready copy.sink) (bounded : contents.length < offsetLimit)

include stable perfect held ready bounded

/-- Copying a piece writes what can be cut out of the frame of its chunk, or reports why nothing
can. -/
theorem part_copied {base : Nat} (piece : Piece)
    (place : base + chunkLength * piece.index < offsetLimit) (ordered : piece.start ≤ piece.stop) :
    ∃ last, copy.part base piece.index piece.start piece.stop =
        .ok ((piece.cut (Image.chunk (contents.drop base) piece.index)).map fun _ => (), last) ∧
      Held last.store ∧ Ready last.sink ∧
      Moved copy.sink last.sink
        ((piece.cut (Image.chunk (contents.drop base) piece.index)).toOption.getD []) := by
  obtain ⟨store, reading, still⟩ := stable.readFullAt held bounded place chunkLength
  rw [← List.drop_drop, ← Image.chunk] at reading
  have fits : (Image.chunk (contents.drop base) piece.index).length ≤ chunkLength :=
    List.length_take_le _ _
  generalize Image.chunk (contents.drop base) piece.index = frame at *
  -- The sink is not called before the piece is cut, so every error leaves it as it was.
  have unmoved := perfect.still copy.sink
  obtain ⟨scratch, back, filling, view⟩ := copy.scratch.fill_start frame fits
  rw [part, chunkStart_eq piece.index (by omega), Checked.add_eq_ok place, Checked.ok_bind, reading,
    Checked.ok_bind]
  dsimp only
  rw [filling, Checked.ok_bind, Piece.cut]
  by_cases none : frame = []
  · rw [if_pos none, if_pos (List.length_eq_zero_iff.mpr none)]
    exact ⟨_, rfl, still, ready, unmoved⟩
  have some : frame.length ≠ 0 := fun zero => none (List.length_eq_zero_iff.mp zero)
  have whole := Scratch.slice_front view
  rw [if_neg none, if_neg some, whole, Checked.ok_bind]
  cases verified : Frame.verify frame with
  | error found => exact ⟨_, rfl, still, ready, unmoved⟩
  | ok sum =>
    dsimp only
    by_cases short : frame.length < headerLength + piece.stop
    · rw [if_pos short, if_pos short]
      exact ⟨_, rfl, still, ready, unmoved⟩
    -- The piece is cut out of the payload, which lies behind the header.
    have cut := Scratch.slice_of_front view (Nat.add_le_add_left ordered headerLength)
      (Nat.le_of_not_lt short)
    have same : (frame.take (headerLength + piece.stop)).drop (headerLength + piece.start) =
        ((Frame.payload frame).take piece.stop).drop piece.start := by
      rw [Frame.payload, ← List.drop_drop, List.drop_take, Nat.add_sub_cancel_left]
    rw [same] at cut
    obtain ⟨sink, writing, moved, after⟩ := perfect.writeAll ready (Nat.le_refl _)
    refine ⟨⟨store, sink, scratch⟩, ?_, still, after, ?_⟩
    · rw [if_neg short, if_neg short, cut, Checked.ok_bind, writing]
      rfl
    · rw [if_neg short]
      exact moved

/-- Copying pieces one after the other writes what can be cut out of the image, up to the first error. -/
theorem pieces_copied {base : Nat} (pieces : List Piece)
    (sound : ∀ piece ∈ pieces,
      base + chunkLength * piece.index < offsetLimit ∧ piece.start ≤ piece.stop) :
    ∃ last, copy.pieces base pieces =
        .ok ((Image.copied (contents.drop base) pieces).reply, last) ∧
      Held last.store ∧ Ready last.sink ∧
      Moved copy.sink last.sink (Image.copied (contents.drop base) pieces).written := by
  -- Every piece that is copied leaves a copy from which the others can be copied.
  induction pieces generalizing copy with
  | nil => exact ⟨copy, rfl, held, ready, perfect.still _⟩
  | cons piece pieces ih =>
    obtain ⟨⟨place, ordered⟩, others⟩ := List.forall_mem_cons.mp sound
    obtain ⟨middle, copying, still, after, moved⟩ :=
      copy.part_copied stable perfect held ready bounded piece place ordered
    rw [RangeCopy.pieces, copying, Image.copied]
    cases cut : piece.cut (Image.chunk (contents.drop base) piece.index) with
    | error error =>
      rw [cut] at moved
      exact ⟨middle, rfl, still, after, moved⟩
    | ok bytes =>
      rw [cut] at moved
      obtain ⟨last, run, still_last, after_last, further⟩ := ih middle still after others
      exact ⟨last, run, still_last, after_last, perfect.trans moved further⟩

/-- Copying a range writes and reports what copying its pieces of the stored image does. -/
theorem run_copied (base start stop : Nat) (fits : base + encodedLength stop < offsetLimit) :
    ∃ last, copy.run base start stop =
        .ok ((Image.copied (contents.drop base) (Piece.ofRange start stop)).reply, last) ∧
      Held last.store ∧ Ready last.sink ∧
      Moved copy.sink last.sink
        (Image.copied (contents.drop base) (Piece.ofRange start stop)).written := by
  rw [run_eq_pieces]
  apply copy.pieces_copied stable perfect held ready bounded
  intro piece member
  obtain ⟨ordered, index⟩ := Piece.mem_ofRange member
  have inside := chunkStart_le stop stop (Nat.le_refl _)
  have place := Nat.mul_le_mul_left chunkLength index
  exact ⟨by omega, ordered⟩

end

end RangeCopy

end SealedStream
