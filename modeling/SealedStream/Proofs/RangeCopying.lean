import SealedStream.Proofs.Canonicity
import SealedStream.Proofs.PieceCopying

/-!
# What a copy of a range writes

Every piece of a range of some data can be cut out of the image of the data, and is the slice of them
that it stands for (`Piece.cut_encode`). Neighbouring slices join, so the pieces of a range together
are the slice of the whole range: over the chunks by induction along the loop, and with the part of
the last chunk behind them (`Image.copied_encode`).
-/
namespace SealedStream

open Layout

/-- Neighbouring slices join. -/
theorem Bytes.slice_append (bytes : Bytes) {start middle stop : Nat} (first : start ≤ middle)
    (second : middle ≤ stop) :
    (bytes.take middle).drop start ++ (bytes.take stop).drop middle =
      (bytes.take stop).drop start := by
  have front : bytes.take middle = (bytes.take stop).take middle := by
    rw [List.take_take, Nat.min_eq_left second]
  rw [front]
  generalize bytes.take stop = whole
  rw [List.drop_take]
  have rest : whole.drop middle = (whole.drop start).drop (middle - start) := by
    rw [List.drop_drop, Nat.add_sub_cancel' first]
  rw [rest, List.take_append_drop]

/-- What has a short rest behind an offset is short. -/
theorem Bytes.length_lt_of_drop {bytes rest : Bytes} {offset limit : Nat}
    (behind : bytes.drop offset = rest) (fits : offset + rest.length < limit) :
    bytes.length < limit := by
  have length := congrArg List.length behind
  rw [List.length_drop] at length
  omega

/-- In an image, the frame of a chunk is where it should be. -/
theorem Image.chunk_encode {data : Bytes} {index : Nat}
    (inside : payloadLength * index < data.length) :
    chunk (encode data) index =
      Frame.ofPayload ((data.drop (payloadLength * index)).take payloadLength) := by
  have some : data.drop (payloadLength * index) ≠ [] := by simpa using inside
  have length := Frame.length_ofPayload ((data.drop (payloadLength * index)).take payloadLength)
  rw [chunk, drop_encode data index (Nat.le_of_lt inside), encode_of_ne_nil some]
  -- A full frame takes the whole chunk; behind a short one nothing comes.
  rcases Nat.le_total payloadLength (data.drop (payloadLength * index)).length with long | short
  · rw [List.length_take_of_le long, headerLength_add_payloadLength] at length
    exact List.take_left' length
  · rw [List.drop_of_length_le short, encode_nil, List.append_nil]
    apply List.take_of_length_le
    rw [length, ← headerLength_add_payloadLength]
    exact Nat.add_le_add_left (List.length_take_le _ _) _

/-- A piece of an image is the slice of the data that it stands for. -/
theorem Piece.cut_encode {data : Bytes} {piece : Piece} (positive : 0 < piece.stop)
    (small : piece.stop ≤ payloadLength)
    (inside : payloadLength * piece.index + piece.stop ≤ data.length) :
    piece.cut (Image.chunk (Image.encode data) piece.index) =
      .ok ((data.take (payloadLength * piece.index + piece.stop)).drop
        (payloadLength * piece.index + piece.start)) := by
  have reaches :
      piece.stop ≤ ((data.drop (payloadLength * piece.index)).take payloadLength).length := by
    rw [List.length_take, List.length_drop]
    omega
  refine cut_eq_ok_iff.mpr ⟨_, ?_, Image.chunk_encode (by omega), reaches, ?_⟩
  · exact List.length_pos_iff.mp (by omega)
  · rw [List.take_take, Nat.min_eq_left small, ← List.drop_drop, List.drop_take,
      Nat.add_sub_cancel_left]

namespace Image

/-- Copying whole chunks writes the data in them, the first of them from `start` on. -/
theorem copied_chunks (data : Bytes) {index last start : Nat} (ordered : index ≤ last)
    (small : start ≤ payloadLength) (inside : payloadLength * last ≤ data.length) :
    copied (encode data) (Piece.chunks index last start) =
      ⟨(data.take (payloadLength * last)).drop (payloadLength * index + start), .ok ()⟩ := by
  -- The induction follows the loop: there is another chunk, or all have been copied.
  fun_induction Piece.chunks index last start with
  | case1 index start more ih =>
    have next_chunk : payloadLength * index + payloadLength ≤ payloadLength * last := by
      rw [← Nat.mul_succ]
      exact Nat.mul_le_mul_left _ more
    have cut : (⟨index, start, payloadLength⟩ : Piece).cut (chunk (encode data) index) =
        .ok ((data.take (payloadLength * index + payloadLength)).drop
          (payloadLength * index + start)) :=
      Piece.cut_encode (Nat.zero_lt_succ _) (Nat.le_refl _) (Nat.le_trans next_chunk inside)
    rw [copied_cons_of_cut _ cut, ih more (Nat.zero_le _), Nat.mul_succ, Nat.add_zero,
      Bytes.slice_append data (Nat.add_le_add_left small _) next_chunk]
  | case2 index start done =>
    have same : index = last := Nat.le_antisymm ordered (Nat.le_of_not_lt done)
    rw [same, List.drop_of_length_le]
    · rfl
    · rw [List.length_take]
      omega

/-- Copying a range of an image writes the slice of the data. -/
theorem copied_encode {data : Bytes} {start stop : Nat} (ordered : start ≤ stop)
    (inside : stop ≤ data.length) :
    copied (encode data) (Piece.ofRange start stop) = ⟨(data.take stop).drop start, .ok ()⟩ := by
  have start_split := offset_split start
  have stop_split := offset_split stop
  have stop_small := Nat.le_of_lt (offsetInChunk_lt stop)
  -- A piece of the last chunk ends where the range does.
  have cut_last : ∀ first, 0 < offsetInChunk stop →
      (⟨chunkIndex stop, first, offsetInChunk stop⟩ : Piece).cut
          (chunk (encode data) (chunkIndex stop)) =
        .ok ((data.take stop).drop (payloadLength * chunkIndex stop + first)) := by
    intro first positive
    have cut := @Piece.cut_encode data ⟨chunkIndex stop, first, offsetInChunk stop⟩ positive
      stop_small (by dsimp only; omega)
    dsimp only at cut
    rwa [← stop_split] at cut
  unfold Piece.ofRange
  -- The range is empty, lies in one chunk, or goes over chunks with a part of the last one behind.
  by_cases empty : stop ≤ start
  · rw [if_pos empty, Nat.le_antisymm ordered empty,
      List.drop_of_length_le (List.length_take_le _ _)]
    rfl
  rw [if_neg empty]
  by_cases one : chunkIndex start = chunkIndex stop
  · rw [one] at start_split
    rw [if_pos one, copied_cons_of_cut [] (cut_last _ (by omega)), ← start_split]
    exact congrArg (Copied.mk · (.ok ())) (List.append_nil _)
  have chunks_ordered : chunkIndex start ≤ chunkIndex stop := Nat.div_le_div_right ordered
  have start_before : start ≤ payloadLength * chunkIndex stop := by
    have next_chunk := Nat.mul_le_mul_left payloadLength
      (show chunkIndex start + 1 ≤ chunkIndex stop by omega)
    have start_small := offsetInChunk_lt start
    rw [Nat.mul_succ] at next_chunk
    omega
  have whole := copied_chunks data chunks_ordered
    (Nat.le_of_lt (offsetInChunk_lt start)) (by omega)
  rw [← start_split] at whole
  rw [if_neg one, copied_append whole]
  by_cases rest : 0 < offsetInChunk stop
  · rw [if_pos rest, copied_cons_of_cut [] (cut_last 0 rest), Nat.add_zero]
    have joined := Bytes.slice_append data start_before (show _ ≤ stop by omega)
    exact congrArg (Copied.mk · (.ok ())) ((congrArg _ (List.append_nil _)).trans joined)
  · have aligned : payloadLength * chunkIndex stop = stop := by omega
    rw [if_neg rest, aligned]
    exact congrArg (Copied.mk · (.ok ())) (List.append_nil _)

end Image

namespace RangeCopy

variable {σ κ : Type} [ReadableStore σ] [Sink κ]

/-- A copy whose store serves its contents and whose sink takes everything. -/
structure Able (contents : Bytes) (taken : κ → Bytes) (copy : RangeCopy σ κ) : Prop where
  serves : ReadableStore.Serves copy.store contents
  accepts : Sink.Accepts taken copy.sink

/-- Copying a range of a stored image writes the slice of the data. -/
theorem run_of_image {contents : Bytes} {taken : κ → Bytes} {copy : RangeCopy σ κ}
    (able : Able contents taken copy) {base start stop : Nat} {data : Bytes}
    (stored : contents.drop base = Image.encode data)
    (fits : base + encodedLength data.length < offsetLimit) (ordered : start ≤ stop)
    (inside : stop ≤ data.length) :
    ∃ last, copy.run base start stop = .ok (.ok (), last) ∧
      Able contents taken last ∧
      taken last.sink = taken copy.sink ++ (data.take stop).drop start := by
  have bounded := Bytes.length_lt_of_drop stored (by rwa [Image.length_encode])
  have shorter := encodedLength_mono inside
  have place : base + encodedLength stop < offsetLimit := by omega
  obtain ⟨last, run, serves, accepts, written⟩ := copy.run_copied (ReadableStore.Serves.stable contents)
    Sink.Accepts.perfect able.serves able.accepts bounded base start stop place
  rw [stored, Image.copied_encode ordered inside] at run written
  exact ⟨last, run, ⟨serves, accepts⟩, written⟩

end RangeCopy

end SealedStream
