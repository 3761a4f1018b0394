import SealedStream.Proofs.SizedDecoding
import SealedStream.Reader.RangeReader

/-!
# What a reader of a range yields

A window on a reader yields the bytes behind those it skips, as many as it shows. A range reader
starts its decoder at the chunk that holds the start of the range, so what it yields is a part of
what unpacking the image from that chunk on gives (`RangeReader.yields_decoder`). For the image of
some data that part is the slice of the data (`RangeReader.create_slice`).
-/
namespace SealedStream

open Layout

namespace Window

variable {ρ : Type} [Source ρ]

/-- What reading on a window should bring: the bytes of the reader behind it, less those to be
skipped, as many as it still shows. -/
def Shows (failure shown : Option FinalError) (window : Window ρ) (bytes : Bytes) : Prop :=
  ∃ whole, Source.Yields window.inner whole failure ∧ window.skip ≤ whole.length ∧
    bytes = (whole.drop window.skip).take window.remaining ∧
    shown = if window.skip + window.remaining ≤ whole.length then none else failure

theorem Shows.discard {failure shown : Option FinalError} {window : Window ρ} {bytes : Bytes}
    (shows : Shows failure shown window bytes) :
    ∃ next, window.discard = .ok (.ok (), next) ∧ next.skip = 0 ∧
      Shows failure shown next bytes := by
  obtain ⟨whole, yields, le, view, ending⟩ := shows
  by_cases none : window.skip = 0
  · refine ⟨window, ?_, none, whole, yields, le, view, ending⟩
    simp [Window.discard, none, pure, Except.pure]
  · obtain ⟨last, skipping, after⟩ := yields.skip_of_le window.skip le
    refine ⟨⟨last, 0, window.remaining⟩, ?_, rfl, whole.drop window.skip, after, Nat.zero_le _, view,
      ?_⟩
    · simp [Window.discard, none, skipping, pure, Except.pure]
    · rw [ending, List.length_drop]
      congr 1
      simp only [eq_iff_iff]
      omega

/-- One read of a window brings some of its bytes, or there are none left and it brings the end. -/
theorem Shows.read {failure shown : Option FinalError} {window : Window ρ} {bytes : Bytes}
    (shows : Shows failure shown window bytes) {room : Nat} (positive : 0 < room) :
    (∃ part rest next, window.read room = .ok (.ok part, next) ∧ part ≠ [] ∧
      bytes = part ++ rest ∧ Shows failure shown next rest) ∨
    (bytes = [] ∧ ∃ next, window.read room = .ok (Source.ending shown, next)) := by
  obtain ⟨⟨inner, skip, remaining⟩, discarding, rfl, whole, yields, _, rfl, rfl⟩ := shows.discard
  have start : window.read room = readInside ⟨inner, 0, remaining⟩ room := by
    rw [Window.read, discarding]
    rfl
  dsimp only at yields ⊢
  rw [start, List.drop_zero, Nat.zero_add]
  -- The window ends where it shows nothing more, and before that where the reader ends.
  by_cases done : remaining = 0
  · refine .inr ⟨by rw [done, List.take_zero], ⟨inner, 0, remaining⟩, ?_⟩
    simp [readInside, done, Source.ending, pure, Except.pure]
  · have some_room : 0 < min room remaining := by omega
    rcases yields.read some_room with ⟨part, rest, next, call, some, rfl, after⟩ | ⟨rfl, next, call⟩
    · have short := Source.length_le_room call
      have left : Checked.sub remaining part.length = .ok (remaining - part.length) :=
        Checked.sub_eq_ok (by omega)
      refine .inl ⟨part, rest.take (remaining - part.length), ⟨next, 0, remaining - part.length⟩,
        ?_, some, ?_, rest, after, Nat.zero_le _, rfl, ?_⟩
      · simp only [readInside, done, if_false, call, Checked.ok_bind, left, pure, Except.pure]
      · rw [List.take_append, List.take_of_length_le (by omega)]
      · rw [List.length_append]
        congr 1
        simp only [eq_iff_iff]
        omega
    · refine .inr ⟨List.take_nil, ⟨next, 0, remaining⟩, ?_⟩
      have past : ¬ remaining ≤ 0 := by omega
      have none_left : Checked.sub remaining 0 = .ok remaining := Checked.sub_eq_ok (Nat.zero_le _)
      rw [List.length_nil, if_neg past]
      cases failure <;> simp [readInside, done, call, none_left, Source.ending, pure, Except.pure]

/-- A window that starts within what a reader hands out yields what lies in it. The reader's failure
shows only if the reader ends inside the window. -/
theorem yields {inner : ρ} {bytes : Bytes} {failure : Option FinalError}
    (yields : Source.Yields inner bytes failure) {skip : Nat} (le : skip ≤ bytes.length)
    (limit : Nat) :
    Source.Yields (create inner skip limit) ((bytes.drop skip).take limit)
      (if skip + limit ≤ bytes.length then none else failure) :=
  ⟨Shows failure _, ⟨bytes, yields, le, rfl, rfl⟩, fun _ _ shows _ positive => shows.read positive⟩

end Window

/-- The decoder over a stored stream that starts at the chunk of the offset and ends with the encoded
stream. -/
def SizedDecoder.stored {σ : Type} (store : σ) (base start size : Nat) (scratch : Scratch) :
    SizedDecoder (Span σ) :=
  create ⟨store, base + chunkLength * chunkIndex start, base + encodedLength size⟩
    (size - payloadLength * chunkIndex start) scratch

theorem SizedDecoder.ofStore_eq_ok {σ : Type} (store : σ) {base start size : Nat}
    (scratch : Scratch) (inside : start ≤ size) (fits : base + encodedLength size < offsetLimit) :
    SizedDecoder.ofStore store base start size scratch =
      .ok (.stored store base start size scratch) := by
  have before := chunkStart_le start size inside
  have rest := encodedLength_suffix start size inside
  -- The extent decodes to what is left of the size, so the span ends where the stream does.
  have extent : encodedLength size - chunkLength * chunkIndex start =
      encodedLength (size - payloadLength * chunkIndex start) := by omega
  have stop : Span.create store (base + chunkLength * chunkIndex start)
      (encodedLength (size - payloadLength * chunkIndex start)) =
      ⟨store, base + chunkLength * chunkIndex start, base + encodedLength size⟩ := by
    rw [Span.create]
    congr 1
    omega
  rw [SizedDecoder.ofStore, chunkStart_eq _ (by omega), encodedSize_eq_ok _ (by omega), Checked.ok_bind,
    Checked.sub_eq_ok before, Checked.ok_bind, Checked.add_eq_ok (by omega), Checked.ok_bind, extent,
    logicalSize_encodedLength, Checked.ok_bind, stop]
  rfl

namespace RangeReader

variable {σ : Type} [ReadableStore σ]

theorem read_whole (decoder : SizedDecoder (Span σ)) (room : Nat) :
    Source.read (whole decoder) room =
      (Source.read decoder room).map fun (reply, next) => (reply, whole next) := by
  show (Source.read decoder room >>= _) = _
  cases Source.read decoder room <;> rfl

theorem read_windowed (window : Window (SizedDecoder (Span σ))) (room : Nat) :
    Source.read (windowed window) room =
      (Source.read window room).map fun (reply, next) => (reply, windowed next) := by
  show (Source.read window room >>= _) = _
  cases Source.read window room <;> rfl

section

variable (store : σ) {base start stop size : Nat} (scratch : Scratch) (inside : start ≤ size)
  (fits : base + encodedLength size < offsetLimit)

include inside fits

omit [ReadableStore σ] in
/-- A range that takes all of its decoder is read without a window. -/
theorem create_eq_whole (all : offsetInChunk start = 0 ∧ size ≤ stop) :
    create store base start stop size scratch =
      .ok (.ok (whole (.stored store base start size scratch))) := by
  rw [create, if_neg (by omega), SizedDecoder.ofStore_eq_ok store scratch inside fits,
    Checked.ok_bind]
  dsimp only
  rw [if_pos all]
  rfl

omit [ReadableStore σ] in
theorem create_eq_windowed (ordered : start ≤ stop)
    (partly : ¬ (offsetInChunk start = 0 ∧ size ≤ stop)) :
    create store base start stop size scratch =
      .ok (.ok (windowed (.create (.stored store base start size scratch) (offsetInChunk start)
        (stop - start)))) := by
  rw [create, if_neg (by omega), SizedDecoder.ofStore_eq_ok store scratch inside fits,
    Checked.ok_bind]
  dsimp only
  rw [if_neg partly]
  rfl

end

/-- The part of a store's contents that holds the encoded stream from a chunk on. -/
def imageFrom (contents : Bytes) (base size index : Nat) : Bytes :=
  (contents.drop (base + chunkLength * index)).take (encodedLength size - chunkLength * index)

theorem length_imageFrom_le (contents : Bytes) (base : Nat) {start size : Nat}
    (inside : start ≤ size) :
    (imageFrom contents base size (chunkIndex start)).length ≤
      encodedLength (size - payloadLength * chunkIndex start) := by
  have rest := encodedLength_suffix start size inside
  rw [imageFrom, List.length_take]
  omega

/-- The decoder behind a range reader yields what comes out of the stored image from the chunk of
the start on. -/
theorem yields_decoder {store : σ} {contents : Bytes} {base start size : Nat} (scratch : Scratch)
    (serves : ReadableStore.Serves store contents) (inside : start ≤ size)
    (fits : base + encodedLength size < offsetLimit) :
    Source.Yields (SizedDecoder.stored store base start size scratch)
      (Image.unpack (size - payloadLength * chunkIndex start)
        (imageFrom contents base size (chunkIndex start))).bytes
      ((Image.unpack (size - payloadLength * chunkIndex start)
        (imageFrom contents base size (chunkIndex start))).failure.map DecodeError.toFinal) := by
  have before := chunkStart_le start size inside
  have supplies := Span.supplies serves
    (Nat.add_le_add_left before base) fits
  rw [Nat.add_sub_add_left] at supplies
  exact SizedDecoder.yields scratch supplies (length_imageFrom_le contents base inside)

/-- A reader of a whole stored stream yields what comes out of the stored image, whatever that
is. -/
theorem create_whole {store : σ} {contents : Bytes} {base size : Nat} (scratch : Scratch)
    (serves : ReadableStore.Serves store contents) (fits : base + encodedLength size < offsetLimit) :
    ∃ reader, create store base 0 size size scratch = .ok (.ok reader) ∧
      Source.Yields reader
        (Image.unpack size ((contents.drop base).take (encodedLength size))).bytes
        ((Image.unpack size ((contents.drop base).take (encodedLength size))).failure.map
          DecodeError.toFinal) := by
  have yields := yields_decoder scratch serves (Nat.zero_le size) fits
  exact ⟨whole (.stored store base 0 size scratch),
    create_eq_whole store scratch (Nat.zero_le size) fits ⟨rfl, Nat.le_refl size⟩,
    yields.wrap whole read_whole⟩

/-- The stored image from a chunk on is the image of the data from that chunk on. -/
theorem imageFrom_of_stored {contents data : Bytes} {base : Nat}
    (stored : (contents.drop base).take (encodedLength data.length) = Image.encode data)
    (start : Nat) (inside : start ≤ data.length) :
    imageFrom contents base data.length (chunkIndex start) =
      Image.encode (data.drop (payloadLength * chunkIndex start)) := by
  have split := offset_split start
  rw [imageFrom, ← List.drop_drop, ← List.drop_take, stored,
    Image.drop_encode data (chunkIndex start) (by omega)]

/-- A range reader of a store in which the image of some data lies yields the slice of the data, up
to its end. -/
theorem create_slice_of_stored {store : σ} {contents data : Bytes} {base : Nat}
    (start stop : Nat) (scratch : Scratch) (serves : ReadableStore.Serves store contents)
    (stored : (contents.drop base).take (encodedLength data.length) = Image.encode data)
    (fits : base + encodedLength data.length < offsetLimit)
    (inside : start ≤ data.length) (ordered : start ≤ stop) :
    ∃ reader, create store base start stop data.length scratch = .ok (.ok reader) ∧
      Source.Yields reader ((data.take stop).drop start) none := by
  have split := offset_split start
  have yields := yields_decoder scratch serves inside fits
  have unpacked := Image.unpack_encode (data.drop (payloadLength * chunkIndex start))
  rw [List.length_drop] at unpacked
  rw [imageFrom_of_stored stored start inside, unpacked] at yields
  -- A range that takes all of the decoder is read without a window.
  by_cases all : offsetInChunk start = 0 ∧ data.length ≤ stop
  · refine ⟨whole (.stored store base start data.length scratch),
      create_eq_whole store scratch inside fits all, .wrap whole read_whole ?_⟩
    have aligned : payloadLength * chunkIndex start = start := by omega
    rw [aligned] at yields
    rw [List.take_of_length_le all.2]
    exact yields
  · have skipped : offsetInChunk start ≤ (data.drop (payloadLength * chunkIndex start)).length := by
      rw [List.length_drop]
      omega
    have window := Window.yields yields skipped (stop - start)
    refine ⟨windowed (.create (.stored store base start data.length scratch)
      (offsetInChunk start) (stop - start)),
      create_eq_windowed store scratch inside fits ordered all, .wrap windowed read_windowed ?_⟩
    -- What the window skips and what the chunks before it hold is all up to the start.
    rw [List.drop_drop, ← split] at window
    rw [List.drop_take]
    simpa using window

/-- A range reader of a store that ends with the image of some data yields the slice of the data,
up to its end. -/
theorem create_slice {store : σ} {contents data : Bytes} {base start stop : Nat} (scratch : Scratch)
    (serves : ReadableStore.Serves store contents)
    (stored : contents.drop base = Image.encode data)
    (fits : base + encodedLength data.length < offsetLimit)
    (inside : start ≤ data.length) (ordered : start ≤ stop) :
    ∃ reader, create store base start stop data.length scratch = .ok (.ok reader) ∧
      Source.Yields reader ((data.take stop).drop start) none := by
  apply create_slice_of_stored start stop scratch serves _ fits inside ordered
  rw [stored, ← Image.length_encode, List.take_length]

end RangeReader

end SealedStream
