import SealedStream.Proofs.Sizes

/-!
# Conversion between logical and encoded sizes

The encoded size grows with the logical size, and it leaves the range of offsets exactly where the
payloads of all chunks below the offset limit are used up (`encodedLength_lt_limit_iff`). The sizes in
its image are those whose last chunk is full or has a payload (`exists_encodedLength_iff`), and on
them the two conversions undo each other. `sizes_correspond` puts this together for the checked sizes
and for the end of a placed stream.
-/
namespace SealedStream

namespace Layout

theorem encodedLength_strictMono {small large : Nat} (less : small < large) :
    encodedLength small < encodedLength large := by
  simp only [encodedLength, chunkCount_eq_div, headerLength]
  omega

/-- A stream ends below the offset limit if its data fit the payloads of the chunks there. -/
theorem encodedLength_lt_limit_iff {logical : Nat} :
    encodedLength logical < offsetLimit ↔ logical < logicalLimit := by
  -- The payloads of all chunks below the limit make a stream that ends at the limit.
  have limit : encodedLength logicalLimit = offsetLimit := encodedLength_full chunkLimit
  constructor
  · intro fits
    apply Nat.lt_of_not_le
    intro large
    have bound := encodedLength_mono large
    omega
  · intro small
    rw [← limit]
    exact encodedLength_strictMono small

theorem encodedSize_eq_overflow_iff {logical : Nat} :
    encodedSize logical = .error .overflow ↔ logicalLimit ≤ logical := by
  rw [← Nat.not_lt, ← encodedLength_lt_limit_iff, Nat.not_lt]
  exact Checked.add_eq_overflow_iff

/-- One to three bytes are some, but fewer than a header has. -/
theorem mem_part_of_header_iff {size : Nat} :
    size ∈ [1, 2, 3] ↔ 0 < size ∧ size < headerLength := by
  simp only [List.mem_cons, List.not_mem_nil, or_false, headerLength]
  omega

/-- Headers alone take more bytes than there are in one to three bytes only. -/
theorem logicalSize_eq_overflow_iff {encoded : Nat} :
    logicalSize encoded = .error .overflow ↔ encoded ∈ [1, 2, 3] := by
  -- A header for each piece is more than the pieces hold only if a part of one header is all there is.
  rw [mem_part_of_header_iff, logicalSize, Checked.sub_eq_overflow_iff,
    pieceCount_eq_div _ _ (by decide)]
  simp only [chunkLength, headerLength]
  omega

/-- The last chunk of a stream is full or has a payload. -/
theorem encodedLength_mod_chunkLength (logical : Nat) :
    encodedLength logical % chunkLength = 0 ∨ headerLength < encodedLength logical % chunkLength := by
  simp only [encodedLength, chunkCount_eq_div, chunkLength, headerLength]
  omega

/-- The sizes that some stream takes are those that leave no header without a payload. -/
theorem exists_encodedLength_iff {encoded : Nat} :
    (∃ logical, encodedLength logical = encoded) ↔ encoded % chunkLength ∉ [1, 2, 3, 4] := by
  have residues : encoded % chunkLength ∉ [1, 2, 3, 4] ↔
      encoded % chunkLength = 0 ∨ headerLength < encoded % chunkLength := by
    simp only [List.mem_cons, List.not_mem_nil, or_false, headerLength]
    omega
  rw [residues]
  constructor
  · rintro ⟨logical, rfl⟩
    exact encodedLength_mod_chunkLength logical
  · intro payload
    obtain ⟨logical, _, exact⟩ := exists_encodedLength payload
    exact ⟨logical, exact⟩

/-- Neither the headers of a stream nor those that its encoded size is cut into take as many bytes as
there are offsets. -/
theorem headers_lt_limit {size : Nat} (fits : size < offsetLimit) :
    headerLength * chunkCount size < offsetLimit ∧
      headerLength * pieceCount size chunkLength < offsetLimit := by
  rw [chunkCount_eq_div, pieceCount_eq_div _ _ (by decide)]
  simp only [chunkLength, headerLength, offsetLimit] at *
  omega

end Layout

open Layout

theorem Placement.encodedEnd?_eq (base logical : Nat) :
    encodedEnd? ⟨base, logical⟩ =
      if base + encodedLength logical < offsetLimit then some (base + encodedLength logical)
      else none := by
  by_cases fits : base + encodedLength logical < offsetLimit
  · rw [if_pos fits, encodedEnd?_eq_some (by dsimp only; omega), Nat.add_comm]
  · rw [if_neg fits, encodedEnd?_eq_none (by dsimp only; omega)]

/-- The conversion of sizes is a bijection. A logical size has an encoded size if it is below the
limit, the 65532 payload bytes of each of the 2^48 chunks below the offset limit, a larger one for a
larger logical size, and the logical size comes back from it. The encoded
sizes below the offset limit are those that leave no header without a payload. The way back stops for
one to three bytes only, and no total of headers on the way leaves the range. A stream has an end in
a store exactly if the end is an offset. -/
theorem sizes_correspond (base logical encoded : Nat) :
    (encodedSize logical = .error .overflow ↔ 65532 * 0x1000000000000 ≤ logical) ∧
    (logical < 65532 * 0x1000000000000 → ∃ size, encodedSize logical = .ok size ∧
      size = logical + 4 * ((logical + 65531) / 65532) ∧ logicalSize size = .ok logical ∧
      ∀ smaller < logical, ∃ less, encodedSize smaller = .ok less ∧ less < size) ∧
    (encoded < offsetLimit →
      ((∃ size < 65532 * 0x1000000000000, encodedSize size = .ok encoded) ↔
        encoded % 65536 ∉ [1, 2, 3, 4]) ∧
      (encoded % 65536 ∉ [1, 2, 3, 4] →
        ∃ size, logicalSize encoded = .ok size ∧ encodedSize size = .ok encoded)) ∧
    (logicalSize encoded = .error .overflow ↔ encoded ∈ [1, 2, 3]) ∧
    (∀ size < offsetLimit, headerLength * chunkCount size < offsetLimit ∧
      headerLength * pieceCount size chunkLength < offsetLimit) ∧
    Placement.encodedEnd? ⟨base, logical⟩ =
      if base + encodedLength logical < offsetLimit then some (base + encodedLength logical)
      else none := by
  have limit : 65532 * 0x1000000000000 = logicalLimit := by decide
  have chunk : 65536 = chunkLength := rfl
  rw [limit, chunk]
  refine ⟨encodedSize_eq_overflow_iff, ?below, ?image, logicalSize_eq_overflow_iff,
    fun _ => headers_lt_limit, Placement.encodedEnd?_eq base logical⟩
  case below =>
    intro small
    refine ⟨encodedLength logical, encodedSize_eq_ok logical (encodedLength_lt_limit_iff.mpr small),
      ?_, logicalSize_encodedLength logical, fun smaller less => ?_⟩
    · rw [encodedLength, chunkCount_eq_div, headerLength]
    · have fits := encodedLength_lt_limit_iff.mpr (Nat.lt_trans less small)
      exact ⟨encodedLength smaller, encodedSize_eq_ok smaller fits, encodedLength_strictMono less⟩
  case image =>
    intro fits
    have sized : ∀ {size}, encodedLength size = encoded → encodedSize size = .ok encoded :=
      fun exact => exact ▸ encodedSize_eq_ok _ (exact ▸ fits)
    refine ⟨?_, fun payload => ?_⟩
    · rw [← exists_encodedLength_iff]
      constructor
      · rintro ⟨size, _, exact⟩
        exact ⟨size, (encodedSize_eq_ok_iff.mp exact).2⟩
      · rintro ⟨size, exact⟩
        exact ⟨size, encodedLength_lt_limit_iff.mp (exact ▸ fits), sized exact⟩
    · obtain ⟨size, exact⟩ := exists_encodedLength_iff.mpr payload
      exact ⟨size, exact ▸ logicalSize_encodedLength size, sized exact⟩

/-- The largest stream ends at the last offset. -/
example : encodedSize (65532 * 0x1000000000000 - 1) = .ok (offsetLimit - 1) := rfl

end SealedStream
