import SealedStream.Proofs.RangeCopying

/-!
# Copying past the end of the data

A copy is not told the size of the stream, so the store has to show where the data end. Of the pieces
of a range that reaches past them, those inside the data are copied, and the first that is not stops
the copy with an unexpected end (`StopsShort.of_range`, `RangeCopy.run_past_end`). The chunks behind
that one are never looked for, so it does not matter where they would start.

The start of a chunk is a shift that drops the bits above the sixty-fourth. That reaches every chunk
of a stream that lies below the offset limit, but a range may start beyond all of them: from
`logicalLimit` on, a copy takes the range that many bytes lower instead (`RangeCopy.run_wraps`).
-/
namespace SealedStream

open Layout

namespace Layout

theorem chunkStart_lt {offset : Nat} (below : offset < logicalLimit) :
    chunkLength * chunkIndex offset < offsetLimit := by
  simp only [logicalLimit, chunkLimit, chunkIndex, chunkLength, payloadLength, offsetLimit] at *
  omega

theorem chunkIndex_add_limit (offset : Nat) :
    chunkIndex (offset + logicalLimit) = chunkIndex offset + chunkLimit :=
  Nat.add_mul_div_left _ _ (by decide)

theorem offsetInChunk_add_limit (offset : Nat) :
    offsetInChunk (offset + logicalLimit) = offsetInChunk offset :=
  Nat.add_mul_mod_self_left _ _ _

/-- Chunks whose indices differ by the number of chunks below the limit share their start. -/
theorem chunkStart_add_limit (index : Nat) : chunkStart (index + chunkLimit) = chunkStart index := by
  simp only [chunkStart, chunkBits, chunkLimit, chunkLength, offsetLimit, Nat.shiftLeft_eq]
  omega

theorem le_chunkIndex {chunks size : Nat} (inside : payloadLength * chunks ≤ size) :
    chunks ≤ chunkIndex size :=
  (Nat.le_div_iff_mul_le (by decide)).mpr (Nat.mul_comm _ _ ▸ inside)

end Layout

/-! ### What comes of the pieces -/

/-- Behind the data there are no frames. -/
theorem Image.chunk_encode_of_le {data : Bytes} {index : Nat}
    (behind : data.length ≤ payloadLength * index) : chunk (encode data) index = [] := by
  have short := encodedLength_mono behind
  rw [encodedLength_full, ← Image.length_encode] at short
  rw [chunk, List.drop_of_length_le short, List.take_nil]

/-- A piece that reaches past the data cannot be cut out of their image. -/
theorem Piece.cut_encode_past_end {data : Bytes} {piece : Piece} (small : piece.stop ≤ payloadLength)
    (past : data.length < payloadLength * piece.index + piece.stop) :
    piece.cut (Image.chunk (Image.encode data) piece.index) =
      .error (.source (.bare .unexpectedEof)) := by
  rcases Nat.lt_or_ge (payloadLength * piece.index) data.length with inside | behind
  · -- The frame is there, but its payload ends before the piece does.
    rw [Image.chunk_encode inside]
    have length : ((data.drop (payloadLength * piece.index)).take payloadLength).length =
        min payloadLength (data.length - payloadLength * piece.index) := by
      rw [List.length_take, List.length_drop]
    generalize (data.drop (payloadLength * piece.index)).take payloadLength = payload at length
    have some : payload ≠ [] := by
      apply List.length_pos_iff.mp
      rw [length]
      simp only [payloadLength] at *
      omega
    have verified := Frame.verify_eq_ok_iff.mpr ⟨payload, some, rfl, rfl⟩
    have short : (Frame.ofPayload payload).length < headerLength + piece.stop := by
      rw [Frame.length_ofPayload]
      omega
    rw [Piece.cut, if_neg (Frame.ofPayload_ne_nil payload), verified]
    exact if_pos short
  · rw [Image.chunk_encode_of_le behind, Piece.cut, if_pos rfl]

/-- A copy of the pieces looks at a front part of them only. It writes some of the data from `start`
on, and then meets an unexpected end. -/
structure StopsShort (data : Bytes) (start bound : Nat) (pieces front : List Piece)
    (written : Bytes) : Prop where
  begins : front <+: pieces
  sound : ∀ piece ∈ front, piece.start ≤ piece.stop ∧ piece.index ≤ bound
  stops : Image.copied (Image.encode data) front =
    ⟨written, .error (.source (.bare .unexpectedEof))⟩
  writes : written <+: data.drop start

namespace StopsShort

variable {data : Bytes}

/-- A piece that reaches past the data is the last that is looked at. -/
theorem of_piece (piece : Piece) (small : piece.stop ≤ payloadLength)
    (ordered : piece.start ≤ piece.stop)
    (past : data.length < payloadLength * piece.index + piece.stop) (start : Nat)
    {bound : Nat} (within : piece.index ≤ bound) (others : List Piece) :
    StopsShort data start bound (piece :: others) [piece] [] where
  begins := List.prefix_append [piece] others
  sound := by simpa using ⟨ordered, within⟩
  stops := by rw [Image.copied, Piece.cut_encode_past_end small past]
  writes := List.nil_prefix

/-- Pieces that join the data from `start` to `middle` may come before. -/
theorem append {start middle bound : Nat} {whole pieces front : List Piece} {bytes : Bytes}
    (stops : StopsShort data middle bound pieces front bytes)
    (ordered : start ≤ middle) (inside : middle ≤ data.length)
    (sound : ∀ piece ∈ whole, piece.start ≤ piece.stop ∧ piece.index ≤ bound)
    (copied : Image.copied (Image.encode data) whole = ⟨(data.take middle).drop start, .ok ()⟩) :
    StopsShort data start bound (whole ++ pieces) (whole ++ front)
      ((data.take middle).drop start ++ bytes) where
  begins := (List.prefix_append_right_inj whole).mpr stops.begins
  sound piece member := (List.mem_append.mp member).elim (sound piece) (stops.sound piece)
  stops := by rw [Image.copied_append copied, stops.stops]
  writes := by
    have joined : data.drop start = (data.take middle).drop start ++ data.drop middle := by
      rw [← List.drop_append_of_le_length (by simp; omega), List.take_append_drop]
    rw [joined]
    exact (List.prefix_append_right_inj _).mpr stops.writes

theorem front_of_append {start bound : Nat} {pieces front : List Piece} {bytes : Bytes}
    (stops : StopsShort data start bound pieces front bytes) (others : List Piece) :
    StopsShort data start bound (pieces ++ others) front bytes :=
  ⟨stops.begins.trans (List.prefix_append _ _), stops.sound, stops.stops, stops.writes⟩

/-- Of chunks that reach past the data, those inside are copied and the next one stops the copy. -/
theorem of_chunks {index last start : Nat} (more : index < last) (small : start ≤ payloadLength)
    (past : data.length < payloadLength * last) :
    ∃ front written, StopsShort data (payloadLength * index + start)
      (max index (chunkIndex data.length)) (Piece.chunks index last start) front written := by
  -- The induction follows the loop over the chunks.
  fun_induction Piece.chunks index last start with
  | case1 index start _ ih =>
    by_cases inside : payloadLength * (index + 1) ≤ data.length
    · have before : index + 1 < last := Nat.lt_of_mul_lt_mul_left (Nat.lt_of_le_of_lt inside past)
      obtain ⟨front, written, stops⟩ := ih before (Nat.zero_le _)
      have reaches := le_chunkIndex inside
      rw [Nat.max_eq_right reaches, Nat.add_zero] at stops
      rw [Nat.max_eq_right (by omega)]
      have cut : (⟨index, start, payloadLength⟩ : Piece).cut
          (Image.chunk (Image.encode data) index) =
            .ok ((data.take (payloadLength * (index + 1))).drop (payloadLength * index + start)) :=
        Piece.cut_encode (Nat.zero_lt_succ _) (Nat.le_refl _) inside
      have whole : Image.copied (Image.encode data) [⟨index, start, payloadLength⟩] =
          ⟨(data.take (payloadLength * (index + 1))).drop (payloadLength * index + start),
            .ok ()⟩ := by
        rw [Image.copied_cons_of_cut [] cut, Image.copied, List.append_nil]
      refine ⟨_, _, stops.append (Nat.add_le_add_left small _) inside ?_ whole⟩
      simpa using ⟨small, by omega⟩
    · exact ⟨_, _, of_piece ⟨index, start, payloadLength⟩ (Nat.le_refl _) small
        (Nat.lt_of_not_le inside) _ (Nat.le_max_left _ _) _⟩
  | case2 index start done => exact absurd more done

/-- Every range that reaches past the data stops short, at a chunk that is not behind both the data
and the start of the range. -/
theorem of_range {start stop : Nat} (some : start < stop) (past : data.length < stop) :
    ∃ front written, StopsShort data start (max (chunkIndex start) (chunkIndex data.length))
      (Piece.ofRange start stop) front written := by
  have start_split := offset_split start
  have stop_split := offset_split stop
  have start_small := Nat.le_of_lt (offsetInChunk_lt start)
  have stop_small := Nat.le_of_lt (offsetInChunk_lt stop)
  rw [Piece.ofRange, if_neg (Nat.not_le.mpr some)]
  by_cases one : chunkIndex start = chunkIndex stop
  · rw [one] at start_split
    rw [if_pos one]
    exact ⟨_, _, of_piece ⟨chunkIndex stop, offsetInChunk start, offsetInChunk stop⟩ stop_small
      (by dsimp only; omega) (by dsimp only; omega) _ (Nat.le_trans (Nat.le_of_eq one.symm)
        (Nat.le_max_left _ _)) _⟩
  have ordered : chunkIndex start < chunkIndex stop :=
    Nat.lt_of_le_of_ne (Nat.div_le_div_right (Nat.le_of_lt some)) one
  rw [if_neg one]
  -- Either a whole chunk is missing, or the data end within the last chunk of the range.
  by_cases missing : data.length < payloadLength * chunkIndex stop
  · obtain ⟨front, written, stops⟩ := of_chunks ordered start_small missing
    rw [← start_split] at stops
    exact ⟨front, written, stops.front_of_append _⟩
  · have inside := Nat.le_of_not_lt missing
    have reaches := le_chunkIndex inside
    have copied := Image.copied_chunks data (Nat.le_of_lt ordered) start_small inside
    rw [← start_split] at copied
    rw [if_pos (by omega)]
    have last := of_piece ⟨chunkIndex stop, 0, offsetInChunk stop⟩ stop_small (Nat.zero_le _)
      (show data.length < _ by dsimp only; omega) (payloadLength * chunkIndex stop)
      (Nat.le_trans reaches (Nat.le_max_right (chunkIndex start) _)) []
    refine ⟨_, _, last.append ?_ inside ?_ copied⟩
    · rw [start_split]
      have next := Nat.mul_le_mul_left payloadLength (Nat.succ_le_of_lt ordered)
      rw [Nat.mul_succ] at next
      omega
    · intro piece member
      obtain ⟨order, place⟩ := Piece.mem_chunks start_small member
      exact ⟨order, by omega⟩

end StopsShort

namespace RangeCopy

variable {σ κ : Type} [ReadableStore σ] [Sink κ]

/-- Copying a range that reaches past the stored data writes some of the data from the start of the
range on, and fails with an unexpected end. -/
theorem run_past_end {contents : Bytes} {taken : κ → Bytes} {copy : RangeCopy σ κ}
    (able : Able contents taken copy) {base start stop : Nat} {data : Bytes}
    (stored : contents.drop base = Image.encode data)
    (fits : base + encodedLength data.length < offsetLimit)
    (place : base + chunkLength * chunkIndex start < offsetLimit) (some : start < stop)
    (past : data.length < stop) :
    ∃ last written, copy.run base start stop =
        .ok (.error (.source (.bare .unexpectedEof)), last) ∧
      Able contents taken last ∧ written <+: data.drop start ∧
      taken last.sink = taken copy.sink ++ written := by
  have bounded := Bytes.length_lt_of_drop stored (by rwa [Image.length_encode])
  have inside := chunkStart_le data.length data.length (Nat.le_refl _)
  obtain ⟨front, written, ⟨back, split⟩, sound, stops, writes⟩ := StopsShort.of_range some past
  have placed : ∀ piece ∈ front,
      base + chunkLength * piece.index < offsetLimit ∧ piece.start ≤ piece.stop := by
    intro piece member
    -- A chunk that is looked at is not behind both the data and the start, which lie below the limit.
    obtain ⟨ordered, index⟩ := sound piece member
    have index_place := Nat.mul_le_mul_left chunkLength index
    rw [← Nat.mul_max_mul_left] at index_place
    exact ⟨by omega, ordered⟩
  obtain ⟨last, run, serves, accepts, grown⟩ := copy.pieces_copied
    (ReadableStore.Serves.stable contents) Sink.Accepts.perfect able.serves able.accepts bounded
    front placed
  rw [stored, stops] at run grown
  refine ⟨last, written, ?_, ⟨serves, accepts⟩, writes, grown⟩
  -- The pieces behind the front are never run.
  rw [run_eq_pieces, ← split, pieces_append, run]
  rfl

/-! ### Ranges beyond all chunks -/

theorem part_wraps (copy : RangeCopy σ κ) (base index start stop : Nat) :
    copy.part base (index + chunkLimit) start stop = copy.part base index start stop := by
  rw [part, part, chunkStart_add_limit]

theorem chunks_wrap (copy : RangeCopy σ κ) (base index last start : Nat) :
    copy.chunks base (index + chunkLimit) (last + chunkLimit) start =
      copy.chunks base index last start := by
  fun_induction chunks copy base index last start with
  | case1 copy index start more ih =>
    rw [chunks, if_pos (Nat.add_lt_add_right more _), part_wraps, Nat.add_right_comm]
    congr 1
    funext _ copy
    exact ih copy
  | case2 copy index start done => rw [chunks, if_neg (by omega)]

/-- A range beyond the chunks below the offset limit is taken for the one that far below it. -/
theorem run_wraps (copy : RangeCopy σ κ) (base start stop : Nat) :
    copy.run base (start + logicalLimit) (stop + logicalLimit) = copy.run base start stop := by
  simp only [run, Nat.add_le_add_iff_right, chunkIndex_add_limit, offsetInChunk_add_limit,
    Nat.add_right_cancel_iff, part_wraps, chunks_wrap]

/-- Copying a range that reaches past the data fails with an unexpected end and writes no more than
data from its start on, provided that it starts below the limit of the chunks. Any other range is
taken for the one that far below it. -/
theorem past_end_or_wrapped {taken : κ → Bytes} {copy : RangeCopy σ κ} {data : Bytes}
    (able : Able (Image.encode data) taken copy) (fits : encodedLength data.length < offsetLimit)
    {start stop : Nat} (some : start < stop) (past : data.length < stop) :
    (start < logicalLimit → ∃ last written,
      copy.run 0 start stop = .ok (.error (.source (.bare .unexpectedEof)), last) ∧
      written <+: data.drop (min start data.length) ∧
      taken last.sink = taken copy.sink ++ written) ∧
    (logicalLimit ≤ start →
      copy.run 0 start stop = copy.run 0 (start - logicalLimit) (stop - logicalLimit)) := by
  constructor
  · intro below
    have stored : (Image.encode data).drop 0 = Image.encode data := rfl
    have place := chunkStart_lt below
    obtain ⟨last, written, run, _, front, grown⟩ :=
      run_past_end able stored (by omega) (by omega) some past
    refine ⟨last, written, run, ?_, grown⟩
    have same : data.drop (min start data.length) = data.drop start := by
      rw [List.drop_eq_drop_iff]
      omega
    rwa [same]
  · intro beyond
    have wrapped := copy.run_wraps 0 (start - logicalLimit) (stop - logicalLimit)
    rwa [Nat.sub_add_cancel beyond, Nat.sub_add_cancel (by omega)] at wrapped

/-- Three stored bytes, read and copied piecemeal: a range past their end fails, and one beyond all
chunks is the range of the second byte. -/
theorem past_three_bytes :
    let medium : Medium := ⟨⟨Image.encode [1, 2, 3]⟩, true,
      [.limit 1, .fail (.bare .interrupted)], [], []⟩
    let outlet := Outlet.fresh [.limit 1] []
    let copy : RangeCopy Medium Outlet := ⟨medium, outlet, .zero⟩
    (∃ last written, copy.run 0 1 9 = .ok (.error (.source (.bare .unexpectedEof)), last) ∧
      written <+: [2, 3] ∧ last.sink.taken = [] ++ written) ∧
    copy.run 0 (logicalLimit + 1) (logicalLimit + 2) = copy.run 0 1 2 := by
  intro medium outlet copy
  have able : Able (Image.encode [1, 2, 3]) Outlet.taken copy :=
    ⟨Medium.serves (by decide), Outlet.accepts (by decide)⟩
  constructor
  · exact (past_end_or_wrapped able (by decide) (by decide) (by decide)).1 (by decide)
  · exact (past_end_or_wrapped able (by decide) (by decide) (by decide)).2 (by decide)

/-- A range far past a single byte, at the end of the 64-bit offsets, is copied as that byte. -/
theorem byte_copied_from_beyond :
    let medium : Medium := ⟨⟨Image.encode [1]⟩, true, [], [], []⟩
    ([1] : Bytes).length < 18445618173802708993 ∧ 18445618173802708993 < offsetLimit ∧
    ∃ last, RangeCopy.run ⟨medium, Outlet.fresh [] [], .zero⟩ 0
        18445618173802708992 18445618173802708993 = .ok (.ok (), last) ∧
      last.sink.taken = [1] := by
  intro medium
  refine ⟨by decide, by decide, ?_⟩
  have able : Able (Image.encode [1]) Outlet.taken
      (⟨medium, Outlet.fresh [] [], .zero⟩ : RangeCopy Medium Outlet) :=
    ⟨Medium.serves (by decide), Outlet.accepts (by decide)⟩
  have stored : (Image.encode [1]).drop 0 = Image.encode [1] := rfl
  have limit : 18445618173802708992 = 0 + logicalLimit := rfl
  have next : 18445618173802708993 = 1 + logicalLimit := rfl
  rw [next, limit, run_wraps]
  obtain ⟨last, run, _, written⟩ :=
    run_of_image able stored (by decide) (Nat.zero_le 1) (Nat.le_refl 1)
  exact ⟨last, run, written⟩

end RangeCopy

end SealedStream
