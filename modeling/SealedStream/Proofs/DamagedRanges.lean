import SealedStream.Proofs.Verification

/-!
# Ranges of a damaged image

A range can be taken out of an image in two ways: unpack from the chunk of its start on and look
through a window, or cut each piece out of its own chunk. Where the image is as long as it should be,
the two give the same bytes and the same damage, whatever the image holds: all of the range
(`Image.copied_complete`), or what comes before the first chunk that does not verify
(`Image.copied_damaged`). Where it is too short they may stop for different reasons, but what the
window shows to its end is copied too.
-/
namespace SealedStream

open Layout

/-- A frame that has a payload and does not verify does not match its header. -/
theorem Frame.mismatch_of_long {frame : Bytes} {found : Damage} (long : headerLength < frame.length)
    (bad : Frame.verify frame = .error found) :
    ∃ stored actual, found = .checksumMismatch stored actual := by
  unfold Frame.verify at bad
  split at bad
  next missing =>
    match frame, missing, long with
    | _ :: _ :: _ :: _ :: _, missing, _ => cases missing
  next stored present =>
    rw [if_neg (Nat.not_le_of_lt long)] at bad
    dsimp only at bad
    split at bad
    next => cases bad
    next =>
      cases bad
      exact ⟨_, _, rfl⟩

/-- A payload behind the header of another checksum does not verify. -/
theorem Frame.verify_of_ne {sum : Checksum} {bytes : Bytes} (some : bytes ≠ [])
    (other : sum ≠ Checksum.of bytes) :
    Frame.verify (sum.header ++ bytes) =
      .error (.checksumMismatch sum.value (Checksum.of bytes).value) := by
  have long : ¬ (sum.header ++ bytes).length ≤ headerLength := by
    have := List.length_pos_iff.mpr some
    rw [List.length_append, Checksum.length_header]
    omega
  rw [Frame.verify, Checksum.ofHeader?_header]
  dsimp only
  rw [if_neg long, Frame.payload_header_append, if_neg other]

/-! ### The pieces of a range, chunk by chunk -/

namespace Piece

/-- The same part of the payload `count` chunks further on. -/
def later (count : Nat) (piece : Piece) : Piece :=
  { piece with index := piece.index + count }

theorem chunks_later (index last start count : Nat) :
    chunks (index + count) (last + count) start = (chunks index last start).map (later count) := by
  fun_induction chunks index last start with
  | case1 index start more ih =>
    rw [chunks, if_pos (Nat.add_lt_add_right more count), List.map_cons, ← ih,
      Nat.add_right_comm index 1]
    rfl
  | case2 index start done =>
    rw [chunks, if_neg (fun more => done (Nat.lt_of_add_lt_add_right more))]
    rfl

/-- A range of whole chunks further on has the same pieces, that many chunks further on. -/
theorem ofRange_later (count start stop : Nat) :
    ofRange (payloadLength * count + start) (payloadLength * count + stop) =
      (ofRange start stop).map (later count) := by
  have index : ∀ offset, chunkIndex (payloadLength * count + offset) = chunkIndex offset + count := by
    intro offset
    rw [chunkIndex, Nat.mul_add_div (by decide), Nat.add_comm]
    rfl
  have place : ∀ offset, offsetInChunk (payloadLength * count + offset) = offsetInChunk offset :=
    fun offset => Nat.mul_add_mod _ _ _
  unfold ofRange
  simp only [index, place, Nat.add_le_add_iff_left, Nat.add_right_cancel_iff]
  -- Both sides choose the same way: no piece, one piece, or a row of them.
  split
  · rfl
  split
  · rfl
  rw [List.map_append, chunks_later]
  split <;> rfl

/-- A range that starts in the first chunk has a piece there, and behind it the pieces of a range that
starts a chunk. -/
theorem ofRange_first {start stop : Nat} (ordered : start < stop) (first : start < payloadLength) :
    ofRange start stop =
      ⟨0, start, min stop payloadLength⟩ :: (ofRange 0 (stop - payloadLength)).map (later 1) := by
  have start_index : chunkIndex start = 0 := Nat.div_eq_of_lt first
  have start_place : offsetInChunk start = start := Nat.mod_eq_of_lt first
  rcases Nat.lt_or_ge stop payloadLength with short | long
  · -- All of the range lies in the first chunk.
    have stop_index : chunkIndex stop = 0 := Nat.div_eq_of_lt short
    have stop_place : offsetInChunk stop = stop := Nat.mod_eq_of_lt short
    have none : stop - payloadLength = 0 := by omega
    rw [none, Nat.min_eq_left (Nat.le_of_lt short)]
    unfold ofRange
    rw [if_neg (by omega), start_index, start_place, stop_index, stop_place, if_pos rfl,
      if_pos (Nat.le_refl 0)]
    rfl
  · obtain ⟨rest, rfl⟩ : ∃ rest, stop = payloadLength * 1 + rest := ⟨stop - payloadLength, by omega⟩
    have stop_index : chunkIndex (payloadLength * 1 + rest) = chunkIndex rest + 1 := by
      rw [chunkIndex, Nat.mul_add_div (by decide), Nat.add_comm]
      rfl
    have stop_place : offsetInChunk (payloadLength * 1 + rest) = offsetInChunk rest :=
      Nat.mul_add_mod _ _ _
    have behind : payloadLength * 1 + rest - payloadLength = rest := by omega
    rw [behind, Nat.min_eq_right (by omega)]
    unfold ofRange
    rw [if_neg (by omega), start_index, start_place, stop_index, stop_place, if_neg (by omega),
      chunks, if_pos (Nat.succ_pos _), chunks_later 0]
    have zero_index : chunkIndex 0 = 0 := rfl
    have zero_place : offsetInChunk 0 = 0 := rfl
    rw [zero_index, zero_place]
    -- Behind the first chunk the range ends at once, in the next chunk, or further on.
    have split := offset_split rest
    by_cases ended : rest ≤ 0
    · obtain rfl : rest = 0 := Nat.le_zero.mp ended
      rw [if_pos (Nat.le_refl 0), zero_index, zero_place, chunks, if_neg (Nat.lt_irrefl 0),
        if_neg (Nat.lt_irrefl 0)]
      rfl
    rw [if_neg ended]
    by_cases near : 0 = chunkIndex rest
    · rw [← near, Nat.mul_zero, Nat.zero_add] at split
      rw [if_pos near, ← near, chunks, if_neg (Nat.lt_irrefl 0), if_pos (by omega)]
      rfl
    · rw [if_neg near, List.map_append, List.cons_append]
      split <;> rfl

end Piece

namespace Image

theorem chunk_drop_chunks (image : Bytes) (count index : Nat) :
    chunk (image.drop (chunkLength * count)) index = chunk image (index + count) := by
  rw [chunk, chunk, List.drop_drop, Nat.mul_add, Nat.add_comm]

/-- Copying pieces further on is copying them from what lies further on. -/
theorem copied_later (image : Bytes) (count : Nat) (pieces : List Piece) :
    copied image (pieces.map (Piece.later count)) =
      copied (image.drop (chunkLength * count)) pieces := by
  induction pieces with
  | nil => rfl
  | cons piece pieces ih =>
    rw [List.map_cons, copied, copied, ih, chunk_drop_chunks]
    rfl

/-! ### The first bad chunk -/

/-- Of an image no longer than it should be, the frame that is opened first is the first chunk. -/
theorem chunk_zero {size : Nat} {image : Bytes} (positive : 0 < size)
    (bounded : image.length ≤ encodedLength size) :
    chunk image 0 = image.take (headerLength + min size payloadLength) := by
  rw [chunk, Nat.mul_zero, List.drop_zero]
  -- A chunk that is not full is the last, so the image ends with it.
  rcases Nat.le_total payloadLength size with full | short
  · rw [Nat.min_eq_right full, headerLength_add_payloadLength]
  · rw [encodedLength_of_le size positive short] at bounded
    rw [Nat.min_eq_left short, List.take_of_length_le bounded, List.take_of_length_le]
    rw [← headerLength_add_payloadLength]
    omega

theorem chunk_of_openFirst {size : Nat} {image payload : Bytes} (positive : 0 < size)
    (bounded : image.length ≤ encodedLength size) (opened : openFirst size image = .ok payload) :
    chunk image 0 = Frame.ofPayload payload := by
  rw [chunk_zero positive bounded]
  exact (length_of_openFirst opened).2.2

/-- The first frame is too short, or does not verify though it has a payload. -/
theorem openFirst_eq_error {size : Nat} {image : Bytes} {error : DecodeError} (positive : 0 < size)
    (bounded : image.length ≤ encodedLength size) (bad : openFirst size image = .error error) :
    ((∃ cause, error = .source cause) ∧ image.length < encodedLength size) ∨
      ∃ found, error = .damage found ∧ headerLength < (chunk image 0).length ∧
        Frame.verify (chunk image 0) = .error found := by
  unfold openFirst at bad
  dsimp only at bad
  split at bad
  next short =>
    cases bad
    have first := encodedLength_first size positive
    exact .inl ⟨⟨_, rfl⟩, by omega⟩
  next long =>
    right
    have exact : (chunk image 0).length = headerLength + min size payloadLength := by
      rw [chunk_zero positive bounded, List.length_take]
      omega
    rw [← chunk_zero positive bounded, openFrame] at bad
    cases verified : Frame.verify (chunk image 0) with
    | error found =>
      rw [verified] at bad
      cases bad
      refine ⟨found, rfl, ?_, rfl⟩
      simp only [payloadLength] at exact
      omega
    | ok sum =>
      rw [verified] at bad
      cases bad

/-- What comes out of an image is no more than should, and less only if something is wrong. -/
theorem length_unpack (size : Nat) (image : Bytes) :
    (unpack size image).bytes.length ≤ size ∧
      ((unpack size image).failure = none ↔ (unpack size image).bytes.length = size) := by
  induction size using Nat.strongRecOn generalizing image with
  | _ size ih =>
    by_cases none : size = 0
    · subst none
      rw [unpack_zero]
      exact ⟨Nat.le_refl 0, fun _ => rfl, fun _ => rfl⟩
    cases first : openFirst size image with
    | error error =>
      rw [unpack_of_error none first]
      exact ⟨Nat.zero_le _, fun done => (by cases done), fun all => absurd all.symm none⟩
    | ok payload =>
      obtain ⟨some, exact, _⟩ := length_of_openFirst first
      have positive : 0 < payload.length := List.length_pos_iff.mpr some
      obtain ⟨bound, complete⟩ := ih (size - payload.length) (by omega) (image.drop chunkLength)
      rw [unpack_of_ok none first]
      dsimp only
      rw [complete, List.length_append]
      constructor
      · omega
      · omega

/-- The chunks whose payloads have come out verify. -/
theorem unpack_sound {size : Nat} {image : Bytes} (bounded : image.length ≤ encodedLength size)
    {index : Nat} (came : payloadLength * index < (unpack size image).bytes.length) :
    ∃ sum, Frame.verify (chunk image index) = .ok sum := by
  induction size using Nat.strongRecOn generalizing image index with
  | _ size ih =>
    by_cases none : size = 0
    · rw [none, unpack_zero] at came
      exact absurd came (Nat.not_lt_zero _)
    have positive : 0 < size := Nat.pos_of_ne_zero none
    cases first : openFirst size image with
    | error error =>
      rw [unpack_of_error none first] at came
      exact absurd came (Nat.not_lt_zero _)
    | ok payload =>
      obtain ⟨some, exact, _⟩ := length_of_openFirst first
      cases index with
      | zero =>
        have sealed := chunk_of_openFirst positive bounded first
        exact ⟨_, Frame.verify_eq_ok_iff.mpr ⟨payload, some, sealed, rfl⟩⟩
      | succ index =>
        have left : size - payload.length = size - payloadLength := by omega
        have behind := encodedLength_le_behind size
        rw [unpack_of_ok none first, List.length_append, Nat.mul_succ, left] at came
        rw [← chunk_drop]
        apply ih (size - payloadLength) (Nat.sub_lt positive (by decide))
        · rw [List.length_drop]
          omega
        · omega

/-- Unpacking stops because the image is too short, or at a chunk that does not verify, when the
payloads of all chunks before that one have come out. -/
theorem unpack_failed {size : Nat} {image : Bytes} (bounded : image.length ≤ encodedLength size)
    {error : DecodeError} (failed : (unpack size image).failure = some error) :
    ((∃ cause, error = .source cause) ∧ image.length < encodedLength size) ∨
      ∃ found index, error = .damage found ∧
        (unpack size image).bytes.length = payloadLength * index ∧
        headerLength < (chunk image index).length ∧
        Frame.verify (chunk image index) = .error found := by
  induction size using Nat.strongRecOn generalizing image with
  | _ size ih =>
    by_cases none : size = 0
    · rw [none, unpack_zero] at failed
      cases failed
    have positive : 0 < size := Nat.pos_of_ne_zero none
    cases first : openFirst size image with
    | error other =>
      rw [unpack_of_error none first] at failed ⊢
      obtain rfl : other = error := Option.some.inj failed
      refine (openFirst_eq_error positive bounded first).imp_right ?_
      rintro ⟨found, rfl, long, bad⟩
      exact ⟨found, 0, rfl, rfl, long, bad⟩
    | ok payload =>
      obtain ⟨some, exact, _⟩ := length_of_openFirst first
      rw [unpack_of_ok none first] at failed ⊢
      dsimp only at failed ⊢
      -- The first chunk is full, as something should come behind it.
      have more : size - payload.length ≠ 0 := by
        intro done
        rw [done, unpack_zero] at failed
        cases failed
      have full : payload.length = payloadLength := by omega
      have whole := encodedLength_first size positive
      rw [← exact, full, headerLength_add_payloadLength] at whole
      rw [full] at failed ⊢
      have behind : (image.drop chunkLength).length ≤ encodedLength (size - payloadLength) := by
        rw [List.length_drop]
        omega
      rcases ih (size - payloadLength) (Nat.sub_lt positive (by decide)) behind failed with
        ⟨cause, short⟩ | ⟨found, index, rfl, came, long, bad⟩
      · rw [List.length_drop] at short
        exact .inl ⟨cause, by omega⟩
      · rw [chunk_drop] at long bad
        refine .inr ⟨found, index + 1, rfl, ?_, long, bad⟩
        rw [List.length_append, full, came, Nat.mul_succ, Nat.add_comm]

/-- To leave out one chunk more is to leave out the full payload that comes first. -/
theorem drop_full_payload {whole rest : Unpacked} {payload : Bytes}
    (full : payload.length = payloadLength)
    (opened : whole = ⟨payload ++ rest.bytes, rest.failure⟩) (index : Nat) :
    (⟨whole.bytes.drop (payloadLength * (index + 1)), whole.failure⟩ : Unpacked) =
      ⟨rest.bytes.drop (payloadLength * index), rest.failure⟩ := by
  have behind : (payload ++ rest.bytes).drop (payloadLength * (index + 1)) =
      rest.bytes.drop (payloadLength * index) := by
    rw [Nat.mul_succ, Nat.add_comm, ← List.drop_drop, ← full, List.drop_left]
  rw [opened, behind]

/-- From a chunk on, there comes out what does not come out of the chunks before. -/
theorem unpack_drop {size : Nat} {image : Bytes} {index : Nat}
    (came : payloadLength * index ≤ (unpack size image).bytes.length) :
    unpack (size - payloadLength * index) (image.drop (chunkLength * index)) =
      ⟨(unpack size image).bytes.drop (payloadLength * index), (unpack size image).failure⟩ := by
  induction index generalizing size image with
  | zero => rw [Nat.mul_zero, Nat.mul_zero, Nat.sub_zero, List.drop_zero, List.drop_zero]
  | succ index ih =>
    rw [Nat.mul_succ] at came
    have some_left : size ≠ 0 := by
      rintro rfl
      rw [unpack_zero, List.length_nil] at came
      simp only [payloadLength] at came
      omega
    cases first : openFirst size image with
    | error error =>
      rw [unpack_of_error some_left first, List.length_nil] at came
      simp only [payloadLength] at came
      omega
    | ok payload =>
      obtain ⟨_, exact, _⟩ := length_of_openFirst first
      obtain ⟨bound, _⟩ := length_unpack (size - payload.length) (image.drop chunkLength)
      have opened := unpack_of_ok some_left first
      have total := congrArg (List.length ∘ Unpacked.bytes) opened
      simp only [Function.comp_apply, List.length_append] at total
      -- The first payload is full, as more comes out than fits a chunk.
      have full : payload.length = payloadLength := by omega
      rw [full] at opened total
      have split : chunkLength * (index + 1) = chunkLength + chunkLength * index := by
        rw [Nat.mul_succ, Nat.add_comm]
      have size_split : size - payloadLength * (index + 1) =
          size - payloadLength - payloadLength * index := by
        rw [Nat.mul_succ, Nat.add_comm, Nat.sub_add_eq]
      rw [drop_full_payload full opened, size_split, split, ← List.drop_drop, ih (by omega)]

end Image

/-! ### Windows -/

/-- What a window on a reader of an image shows of what comes out of it. -/
def Unpacked.window (unpacked : Unpacked) (skip limit : Nat) : Unpacked :=
  ⟨(unpacked.bytes.drop skip).take limit,
    if skip + limit ≤ unpacked.bytes.length then none else unpacked.failure⟩

namespace Unpacked

/-- A window that ends within the first payload shows a part of it. -/
theorem window_front (payload : Bytes) (behind : Unpacked) {skip limit : Nat}
    (inside : skip + limit ≤ payload.length) :
    window ⟨payload ++ behind.bytes, behind.failure⟩ skip limit =
      ⟨(payload.drop skip).take limit, none⟩ := by
  have enough : skip + limit ≤ (payload ++ behind.bytes).length := by
    rw [List.length_append]
    omega
  rw [window, if_pos enough, List.drop_append_of_le_length (by omega),
    List.take_append_of_le_length (by rw [List.length_drop]; omega)]

/-- A window that ends behind the first payload shows the rest of it, and then what a window on what
comes behind shows. -/
theorem window_over (payload : Bytes) (behind : Unpacked) {skip limit : Nat}
    (before : skip ≤ payload.length) (past : payload.length ≤ skip + limit) :
    window ⟨payload ++ behind.bytes, behind.failure⟩ skip limit =
      ⟨payload.drop skip ++ (behind.window 0 (skip + limit - payload.length)).bytes,
        (behind.window 0 (skip + limit - payload.length)).failure⟩ := by
  have left : limit - (payload.length - skip) = skip + limit - payload.length := by omega
  have same : skip + limit ≤ (payload ++ behind.bytes).length ↔
      0 + (skip + limit - payload.length) ≤ behind.bytes.length := by
    rw [List.length_append]
    omega
  simp only [window, same, List.drop_append_of_le_length before, List.take_append,
    List.length_drop, left, List.drop_zero]
  rw [List.take_of_length_le (by rw [List.length_drop]; omega)]

/-- A window that is as wide as all that should come out shows it all. -/
theorem window_all {unpacked : Unpacked} {limit : Nat} (bound : unpacked.bytes.length ≤ limit)
    (complete : unpacked.failure = none ↔ unpacked.bytes.length = limit) :
    unpacked.window 0 limit = unpacked := by
  rw [window, List.drop_zero, List.take_of_length_le bound, Nat.zero_add]
  split
  · have ended : unpacked.failure = none := complete.mpr (by omega)
    rw [← ended]
  · rfl

end Unpacked

/-- How a copy ends that stops for the same reason. -/
def Unpacked.reply (unpacked : Unpacked) : Except StreamError Unit :=
  match unpacked.failure with
  | none => .ok ()
  | some error => .error error.toStreamError

theorem Unpacked.reply_of_failure (bytes : Bytes) (unpacked : Unpacked) :
    reply ⟨bytes, unpacked.failure⟩ = unpacked.reply :=
  rfl

namespace Image

/-- A range that starts in the first chunk is copied as far as the window shows, and to the same end,
unless the unpacking ran out of image. -/
theorem copied_first {size start stop : Nat} {image : Bytes}
    (bounded : image.length ≤ encodedLength size) (ordered : start < stop) (inside : stop ≤ size)
    (first : start < payloadLength) :
    copied image (Piece.ofRange start stop) =
        ⟨((unpack size image).window start (stop - start)).bytes,
          ((unpack size image).window start (stop - start)).reply⟩ ∨
      ∃ cause, ((unpack size image).window start (stop - start)).failure = some (.source cause) := by
  -- The induction is on the size; behind the first chunk the range starts with a chunk.
  induction size using Nat.strongRecOn generalizing image start stop with
  | _ size ih =>
    have positive : 0 < size := by omega
    have none : size ≠ 0 := Nat.ne_of_gt positive
    rw [Piece.ofRange_first ordered first]
    cases opening : openFirst size image with
    | error error =>
      have past : ¬ start + (stop - start) ≤ 0 := by omega
      rw [unpack_of_error none opening, Unpacked.window, List.drop_nil, List.take_nil,
        List.length_nil, if_neg past]
      rcases openFirst_eq_error positive bounded opening with
        ⟨⟨cause, rfl⟩, _⟩ | ⟨found, rfl, long, bad⟩
      · exact .inr ⟨cause, rfl⟩
      · left
        have some : chunk image 0 ≠ [] := by
          intro empty
          rw [empty] at long
          exact absurd long (Nat.not_lt_zero _)
        rw [copied, Piece.cut, if_neg some, bad]
        rfl
    | ok payload =>
      obtain ⟨some, exact, _⟩ := length_of_openFirst opening
      have sealed := chunk_of_openFirst positive bounded opening
      have cut : Piece.cut ⟨0, start, min stop payloadLength⟩ (chunk image 0) =
          .ok ((payload.take (min stop payloadLength)).drop start) :=
        Piece.cut_eq_ok_iff.mpr ⟨payload, some, sealed, by dsimp only; omega, rfl⟩
      have left : size - payload.length = size - payloadLength := by omega
      rw [copied_cons_of_cut _ cut, copied_later, Nat.mul_one, unpack_of_ok none opening, left]
      by_cases short : stop ≤ payloadLength
      · -- The range ends in the first chunk, and nothing is left to copy.
        have none_left : stop - payloadLength = 0 := by omega
        have whole : start + (stop - start) ≤ payload.length := by omega
        rw [Unpacked.window_front payload _ whole, Nat.min_eq_left short, none_left]
        left
        unfold Piece.ofRange
        rw [if_pos (Nat.le_refl 0), List.drop_take]
        exact congrArg (Copied.mk · (.ok ())) (List.append_nil _)
      · -- The first payload is full, and the rest of the range starts the next chunk.
        have full : payload.length = payloadLength := by omega
        have ends : start + (stop - start) - payload.length = stop - payloadLength := by omega
        have chunk := encodedLength_first size positive
        rw [← exact, full, headerLength_add_payloadLength] at chunk
        have behind : (image.drop chunkLength).length ≤ encodedLength (size - payloadLength) := by
          rw [List.length_drop]
          omega
        have rest := ih (size - payloadLength) (Nat.sub_lt positive (by decide)) behind
          (Nat.sub_pos_of_lt (Nat.lt_of_not_le short)) (Nat.sub_le_sub_right inside _) (by decide)
        rw [Nat.sub_zero] at rest
        rw [Unpacked.window_over payload _ (by omega) (by omega), ends,
          Nat.min_eq_right (Nat.le_of_not_le short), List.take_of_length_le (Nat.le_of_eq full)]
        dsimp only
        refine rest.imp_left fun same => ?_
        rw [Unpacked.reply_of_failure, same]

/-- What comes out of a range of an image that should hold `size` bytes, when it is unpacked from the
chunk of the start on. -/
def ranged (size : Nat) (image : Bytes) (start stop : Nat) : Unpacked :=
  (unpack (size - payloadLength * chunkIndex start)
    (image.drop (chunkLength * chunkIndex start))).window (offsetInChunk start) (stop - start)

/-- Out of a range that starts within what comes out of the image, there comes out what a window on
that shows. -/
theorem ranged_of_le {size start stop : Nat} {image : Bytes}
    (came : payloadLength * chunkIndex start ≤ (unpack size image).bytes.length) :
    ranged size image start stop = (unpack size image).window start (stop - start) := by
  have split := offset_split start
  have within : offsetInChunk start + (stop - start) ≤
        (unpack size image).bytes.length - payloadLength * chunkIndex start ↔
      start + (stop - start) ≤ (unpack size image).bytes.length := by omega
  rw [ranged, unpack_drop came, Unpacked.window, Unpacked.window]
  simp only [List.drop_drop, List.length_drop, ← split, within]

/-- The chunks that hold the bytes of a range verify. -/
def Verifies (image : Bytes) (start stop : Nat) : Prop :=
  ∀ index, chunkIndex start ≤ index → payloadLength * index < stop →
    ∃ sum, Frame.verify (chunk image index) = .ok sum

/-- The chunk is the first of those that hold the bytes of a range that does not verify. -/
structure FirstDamaged (image : Bytes) (start stop index : Nat) (found : Damage) : Prop where
  behind : chunkIndex start ≤ index
  before : payloadLength * index < stop
  damaged : Frame.verify (chunk image index) = .error found
  sound : Verifies image start (payloadLength * index)

section

variable {size start stop : Nat} {image : Bytes} (bounded : image.length ≤ encodedLength size)
  (ordered : start < stop) (inside : stop ≤ size)

include bounded inside

theorem bounded_from (before : start ≤ stop) :
    (image.drop (chunkLength * chunkIndex start)).length ≤
      encodedLength (size - payloadLength * chunkIndex start) := by
  have suffix := encodedLength_suffix start size (Nat.le_trans before inside)
  rw [List.length_drop]
  omega

include ordered

/-- What a copy of a range writes is what comes out of the range, and it stops for the same reason,
unless the unpacking ran out of image. -/
theorem copied_ranged :
    copied image (Piece.ofRange start stop) =
        ⟨(ranged size image start stop).bytes, (ranged size image start stop).reply⟩ ∨
      ∃ cause, (ranged size image start stop).failure = some (.source cause) := by
  have shorter := bounded_from bounded inside (Nat.le_of_lt ordered)
  have suffix := encodedLength_suffix start size (by omega)
  have split := offset_split start
  have small := offsetInChunk_lt start
  -- The whole range is moved to the first chunk of what the image holds from its chunk on.
  obtain ⟨rest, last⟩ : ∃ rest, stop = payloadLength * chunkIndex start + rest :=
    ⟨stop - payloadLength * chunkIndex start, by omega⟩
  have moved : Piece.ofRange start stop =
      (Piece.ofRange (offsetInChunk start) rest).map (Piece.later (chunkIndex start)) := by
    rw [← Piece.ofRange_later, ← split, ← last]
  have limit : rest - offsetInChunk start = stop - start := by omega
  have here := copied_first shorter (show offsetInChunk start < rest by omega)
    (show rest ≤ size - payloadLength * chunkIndex start by omega) small
  rwa [limit, ← copied_later, ← moved] at here

/-- Where all bytes before an offset have come out of the chunks from that of `start` on, these chunks
verify. -/
theorem verifies_of_unpack {middle : Nat}
    (came : middle ≤ payloadLength * chunkIndex start +
      (unpack (size - payloadLength * chunkIndex start)
        (image.drop (chunkLength * chunkIndex start))).bytes.length) :
    Verifies image start middle := by
  intro index behind before
  have shorter := bounded_from bounded inside (Nat.le_of_lt ordered)
  obtain ⟨rest, rfl⟩ := Nat.exists_eq_add_of_le' behind
  rw [Nat.mul_add] at before
  rw [← chunk_drop_chunks]
  exact unpack_sound shorter (by omega)

/-- A range that comes out without a failure comes out whole, and its chunks verify. -/
theorem ranged_complete (whole : (ranged size image start stop).failure = none) :
    (ranged size image start stop).bytes.length = stop - start ∧ Verifies image start stop := by
  have split := offset_split start
  have sound := @verifies_of_unpack _ _ _ _ bounded ordered inside stop
  obtain ⟨bound, complete⟩ := length_unpack (size - payloadLength * chunkIndex start)
    (image.drop (chunkLength * chunkIndex start))
  unfold ranged Unpacked.window at whole ⊢
  dsimp only at whole ⊢
  -- The window ends within what has come out, also if that is all.
  have enough : offsetInChunk start + (stop - start) ≤
      (unpack (size - payloadLength * chunkIndex start)
        (image.drop (chunkLength * chunkIndex start))).bytes.length := by
    by_cases enough : offsetInChunk start + (stop - start) ≤
      (unpack (size - payloadLength * chunkIndex start)
        (image.drop (chunkLength * chunkIndex start))).bytes.length
    · exact enough
    · rw [if_neg enough] at whole
      have all := complete.mp whole
      omega
  refine ⟨?_, sound (by omega)⟩
  rw [List.length_take, List.length_drop]
  omega

/-- A range does not come out whole because the image is too short, or up to the first damaged chunk,
which does not match its header. -/
theorem ranged_failed {error : DecodeError}
    (failed : (ranged size image start stop).failure = some error) :
    ((∃ cause, error = .source cause) ∧ image.length < encodedLength size) ∨
      ∃ index stored actual, error = .damage (.checksumMismatch stored actual) ∧
        FirstDamaged image start stop index (.checksumMismatch stored actual) ∧
        (ranged size image start stop).bytes.length = payloadLength * index - start := by
  have shorter := bounded_from bounded inside (Nat.le_of_lt ordered)
  have suffix := encodedLength_suffix start size (by omega)
  have split := offset_split start
  have sound := @verifies_of_unpack _ _ _ _ bounded ordered inside
  unfold ranged Unpacked.window at failed ⊢
  dsimp only at failed ⊢
  split at failed
  next => cases failed
  next past =>
    rcases unpack_failed shorter failed with ⟨cause, short⟩ | ⟨found, index, rfl, came, long, bad⟩
    · rw [List.length_drop] at short
      exact .inl ⟨cause, by omega⟩
    rw [chunk_drop_chunks] at long bad
    rw [came] at past sound
    obtain ⟨stored, actual, rfl⟩ := Frame.mismatch_of_long long bad
    have place : payloadLength * (index + chunkIndex start) =
        payloadLength * index + payloadLength * chunkIndex start := Nat.mul_add _ _ _
    refine .inr ⟨index + chunkIndex start, stored, actual, rfl,
      ⟨Nat.le_add_left _ _, by omega, bad, sound (by omega)⟩, ?_⟩
    rw [List.length_take, List.length_drop, came]
    omega

/-- A range that comes out without a failure is copied, and its chunks verify. -/
theorem copied_complete (whole : (ranged size image start stop).failure = none) :
    copied image (Piece.ofRange start stop) = ⟨(ranged size image start stop).bytes, .ok ()⟩ ∧
      (ranged size image start stop).bytes.length = stop - start ∧ Verifies image start stop := by
  refine ⟨?_, ranged_complete bounded ordered inside whole⟩
  rcases copied_ranged bounded ordered inside with same | ⟨_, other⟩
  · rw [same, Unpacked.reply, whole]
  · cases whole.symm.trans other

/-- A range of an image that is all there is copied up to the first damaged chunk, if it does not come
out whole. -/
theorem copied_damaged {error : DecodeError} (long : encodedLength size ≤ image.length)
    (failed : (ranged size image start stop).failure = some error) :
    ∃ index stored actual, error = .damage (.checksumMismatch stored actual) ∧
      copied image (Piece.ofRange start stop) = ⟨(ranged size image start stop).bytes,
        .error (.fault (.damage (.checksumMismatch stored actual)))⟩ ∧
      FirstDamaged image start stop index (.checksumMismatch stored actual) ∧
      (ranged size image start stop).bytes.length = payloadLength * index - start := by
  rcases ranged_failed bounded ordered inside failed with
    ⟨_, short⟩ | ⟨index, stored, actual, rfl, first, came⟩
  · omega
  refine ⟨index, stored, actual, rfl, ?_, first, came⟩
  rcases copied_ranged bounded ordered inside with same | ⟨_, other⟩
  · rw [same, Unpacked.reply, failed]
    rfl
  · cases failed.symm.trans other

end

/-! ### Images of which only a front comes out -/

section

variable {size start stop : Nat} {image front : Bytes} {found : Damage}
  (stops : unpack size image = ⟨front, some (.damage found)⟩)
  (reaches : payloadLength * chunkIndex start ≤ front.length) (ordered : start ≤ stop)

include stops reaches ordered

/-- A range that starts no later than the damaged chunk gives its part of the front. -/
theorem ranged_front :
    ranged size image start stop =
      ⟨(front.take stop).drop start,
        if stop ≤ front.length then none else some (.damage found)⟩ := by
  have came : payloadLength * chunkIndex start ≤ (unpack size image).bytes.length := by
    rw [stops]
    exact reaches
  rw [ranged_of_le came, stops, Unpacked.window, Nat.add_sub_cancel' ordered, List.drop_take]

/-- Copying such a range gives its part of the front, and stops for the same reason, unless there is
nothing to copy. -/
theorem copied_front (bounded : image.length ≤ encodedLength size) (inside : stop ≤ size) :
    copied image (Piece.ofRange start stop) =
      ⟨(front.take stop).drop start,
        if stop ≤ front.length ∨ start = stop then .ok ()
        else .error (.fault (.damage found))⟩ := by
  rcases Nat.eq_or_lt_of_le ordered with rfl | some
  · rw [Piece.ofRange, if_pos (Nat.le_refl start), if_pos (.inr rfl), List.drop_take, Nat.sub_self,
      List.take_zero]
    rfl
  · have shown := ranged_front stops reaches ordered
    have same : (stop ≤ front.length ∨ start = stop) ↔ stop ≤ front.length := by omega
    rcases copied_ranged bounded some inside with copy | ⟨cause, other⟩
    · rw [copy, shown, Unpacked.reply]
      simp only [same]
      by_cases within : stop ≤ front.length
      · rw [if_pos within, if_pos within]
      · rw [if_neg within, if_neg within]
        rfl
    · rw [shown] at other
      dsimp only at other
      split at other <;> cases other

end

end Image

end SealedStream
