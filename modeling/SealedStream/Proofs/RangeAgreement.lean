import SealedStream.Proofs.DamagedRanges

/-!
# Reader and copy on damaged stores

On a sound stream a reader of a range and a copy of it both give the slice of the data. Here the store
may hold anything. The reader yields what comes out of the range of the stored region, to its end or to
the damage (`Archive.reader_yields`), also where the window fails before it has come to its start. The
copy writes the same as long as the region is all there, and in any case if the reader gets to the end
(`Archive.reader_and_copy_agree`).
-/
namespace SealedStream

open Layout

/-! ### Windows that fail before they start -/

namespace Source

variable {ρ : Type} [Source ρ] {source : ρ} {bytes : Bytes}

theorem skip_of_failed_read {next : ρ} {count : Nat} {error : FinalError} (nonzero : count ≠ 0)
    (call : read source (min skipBlock count) = .ok (.error error.toIo, next)) :
    skip source count = .ok (.error error, next) := by
  rw [skip, if_neg nonzero]
  split
  next other => cases call.symm.trans other
  next other => cases call.symm.trans other
  next other =>
    cases call.symm.trans other
    rw [dif_neg error.kind_ne]
    rfl

/-- Skipping past what a reader hands out fails as the reader does. -/
theorem Yields.skip_of_lt {error : FinalError} (yields : Yields source bytes (some error))
    (count : Nat) (lt : bytes.length < count) :
    ∃ last, Source.skip source count = .ok (.error error, last) := by
  induction count using Nat.strongRecOn generalizing source bytes with
  | _ count ih =>
    have nonzero : count ≠ 0 := by omega
    have room : 0 < min skipBlock count := by
      simp only [skipBlock]
      omega
    rcases yields.read room with ⟨part, rest, next, call, some, rfl, after⟩ | ⟨rfl, next, call⟩
    · have positive : 0 < part.length := List.length_pos_iff.mpr some
      rw [List.length_append] at lt
      obtain ⟨last, run⟩ := ih (count - part.length) (by omega) after (by omega)
      refine ⟨last, ?_⟩
      rw [skip_of_read nonzero call some, run]
      rfl
    · exact ⟨next, skip_of_failed_read nonzero call⟩

end Source

/-- A window that starts behind what a reader hands out fails as the reader does. -/
theorem Window.yields_of_lt {ρ : Type} [Source ρ] {inner : ρ} {bytes : Bytes} {error : FinalError}
    (yields : Source.Yields inner bytes (some error)) {skip : Nat} (lt : bytes.length < skip)
    (limit : Nat) : Source.Yields (create inner skip limit) [] (some error) := by
  -- Only the first read counts, as it fails.
  refine ⟨fun window rest => rest = [] ∧ window = create inner skip limit, ⟨rfl, rfl⟩, ?_⟩
  rintro _ _ ⟨rfl, rfl⟩ room _
  obtain ⟨last, skipping⟩ := yields.skip_of_lt skip lt
  have nonzero : skip ≠ 0 := by omega
  refine .inr ⟨rfl, ⟨last, skip, limit⟩, ?_⟩
  show Window.read _ room = _
  simp [Window.read, discard, create, nonzero, skipping, Source.ending, pure, Except.pure]

/-- A window on a reader yields what it shows of what the reader gives, if it starts within that or
the reader fails. -/
theorem Window.yields_window {ρ : Type} [Source ρ] {inner : ρ} {unpacked : Unpacked}
    (yields : Source.Yields inner unpacked.bytes (unpacked.failure.map DecodeError.toFinal))
    {skip : Nat} (starts : unpacked.failure = none → skip ≤ unpacked.bytes.length) (limit : Nat) :
    Source.Yields (create inner skip limit) (unpacked.window skip limit).bytes
      ((unpacked.window skip limit).failure.map DecodeError.toFinal) := by
  by_cases within : skip ≤ unpacked.bytes.length
  · have shown := Window.yields yields within limit
    unfold Unpacked.window
    dsimp only
    split
    · rwa [if_pos ‹_›] at shown
    · rwa [if_neg ‹_›] at shown
  · cases failure : unpacked.failure with
    | none => exact absurd (starts failure) within
    | some error =>
      rw [failure] at yields
      have past : ¬ skip + limit ≤ unpacked.bytes.length := by omega
      rw [Unpacked.window, if_neg past, failure, List.drop_of_length_le (by omega), List.take_nil]
      exact Window.yields_of_lt yields (Nat.lt_of_not_le within) limit

namespace RangeReader

variable {σ : Type} [ReadableStore σ]

/-- A range reader yields what comes out of the range of the stored image, whatever is stored. -/
theorem create_ranged {store : σ} {contents : Bytes} {base start stop size : Nat} (scratch : Scratch)
    (serves : ReadableStore.Serves store contents) (ordered : start ≤ stop) (inside : stop ≤ size)
    (fits : base + encodedLength size < offsetLimit) :
    ∃ reader, create store base start stop size scratch = .ok (.ok reader) ∧
      Source.Yields reader
        (Image.ranged size ((contents.drop base).take (encodedLength size)) start stop).bytes
        ((Image.ranged size ((contents.drop base).take (encodedLength size)) start stop).failure.map
          DecodeError.toFinal) := by
  have split := offset_split start
  have yields := yields_decoder scratch serves (by omega : start ≤ size) fits
  have region : imageFrom contents base size (chunkIndex start) =
      ((contents.drop base).take (encodedLength size)).drop (chunkLength * chunkIndex start) := by
    rw [imageFrom, List.drop_take, List.drop_drop]
  rw [region] at yields
  unfold Image.ranged
  obtain ⟨bound, complete⟩ := Image.length_unpack (size - payloadLength * chunkIndex start)
    (((contents.drop base).take (encodedLength size)).drop (chunkLength * chunkIndex start))
  generalize Image.unpack (size - payloadLength * chunkIndex start) _ = unpacked at *
  -- A range that takes all of the decoder is read without a window, which would show as much.
  by_cases all : offsetInChunk start = 0 ∧ size ≤ stop
  · refine ⟨whole (.stored store base start size scratch),
      create_eq_whole store scratch (by omega) fits all, .wrap whole read_whole ?_⟩
    have shown : unpacked.window (offsetInChunk start) (stop - start) = unpacked := by
      have limit : stop - start = size - payloadLength * chunkIndex start := by omega
      rw [all.1, limit]
      exact Unpacked.window_all bound complete
    rwa [shown]
  · refine ⟨windowed (.create (.stored store base start size scratch) (offsetInChunk start)
      (stop - start)), create_eq_windowed store scratch (by omega) fits ordered all,
      .wrap windowed read_windowed ?_⟩
    apply Window.yields_window yields
    intro ended
    have exact := complete.mp ended
    omega

end RangeReader

/-! ### Reader and copy -/

/-- Draining with buffers that are not empty comes to the bytes and the end given, if it comes to an
end at all, as it does with enough buffers. -/
def Source.DrainsTo {ρ : Type} [Source ρ] (reader : ρ) (bytes : Bytes) (progress : Progress) : Prop :=
  ∀ rooms : List Nat, (∀ room ∈ rooms, 0 < room) →
    ∃ drained last, drain reader rooms = .ok (drained, last) ∧ drained.bytes <+: bytes ∧
      (drained.progress ≠ .unfinished ∨ bytes.length < rooms.length → drained = ⟨bytes, progress⟩)

theorem Source.Yields.drainsTo {ρ : Type} [Source ρ] {reader : ρ} {bytes : Bytes}
    {failure : Option FinalError} (yields : Yields reader bytes failure) :
    DrainsTo reader bytes (.ofFailure failure) := by
  intro rooms positive
  induction rooms generalizing reader bytes with
  | nil =>
    refine ⟨⟨[], .unfinished⟩, reader, rfl, List.nil_prefix, ?_⟩
    rintro (ended | enough)
    · exact absurd rfl ended
    · exact absurd enough (Nat.not_lt_zero _)
  | cons room rooms ih =>
    rcases yields.read (positive room (by simp)) with
      ⟨part, rest, next, call, some, rfl, after⟩ | ⟨rfl, next, call⟩
    · obtain ⟨drained, last, run, front, come⟩ :=
        ih after fun room member => positive room (by simp [member])
      have positive : 0 < part.length := List.length_pos_iff.mpr some
      refine ⟨⟨part ++ drained.bytes, drained.progress⟩, last, ?_,
        (List.prefix_append_right_inj part).mpr front, fun enough => ?_⟩
      · simp only [Source.drain, call, Checked.ok_bind, some, if_false, run]
        rfl
      · rw [List.length_append, List.length_cons] at enough
        rw [come (enough.imp_right (by omega))]
    · refine ⟨⟨[], .ofFailure failure⟩, next, ?_, List.prefix_refl _, fun _ => rfl⟩
      cases failure <;> simp [Source.drain, call, ending, Progress.ofFailure, pure, Except.pure]

namespace Archive

theorem checkRange_eq_ok {σ : Type} {archive : Archive σ} {start stop : Nat}
    (ordered : start ≤ stop) (inside : stop ≤ archive.logicalSize) :
    archive.checkRange start stop = .ok () := by
  rw [checkRange, if_neg (by omega)]

theorem reader_eq_create {σ : Type} (archive : Archive σ) {start stop : Nat} (ordered : start ≤ stop)
    (inside : stop ≤ archive.logicalSize) :
    archive.reader start stop = RangeReader.create archive.store archive.placement.base start stop
      archive.logicalSize .zero := by
  rw [reader, checkRange_eq_ok ordered inside]

theorem readRange_eq_copyRange {σ κ : Type} [ReadableStore σ] [Sink κ] (archive : Archive σ)
    {start stop : Nat} (ordered : start ≤ stop) (inside : stop ≤ archive.logicalSize) (sink : κ) :
    archive.readRange sink start stop = archive.copyRange sink start stop := by
  rw [readRange, checkRange_eq_ok ordered inside]

variable {σ : Type} [ReadableStore σ]

section

variable {archive : Archive σ} {contents : Bytes} {start stop : Nat}
  (valid : archive.placement.validate = .ok ())
  (serves : ReadableStore.Serves archive.store contents) (ordered : start ≤ stop)
  (inside : stop ≤ archive.logicalSize)

include valid serves ordered inside

theorem reader_yields :
    ∃ reader, archive.reader start stop = .ok (.ok reader) ∧
      Source.Yields reader
        (Image.ranged archive.logicalSize (archive.placement.region contents) start stop).bytes
        ((Image.ranged archive.logicalSize (archive.placement.region contents) start stop).failure.map
          DecodeError.toFinal) := by
  have fits := Placement.validate_eq_ok_iff.mp valid
  rw [Nat.add_comm] at fits
  rw [reader_eq_create archive ordered inside]
  exact RangeReader.create_ranged .zero serves ordered inside fits

theorem readRange_copied {κ : Type} [Sink κ] {taken : κ → Bytes} {sink : κ}
    (accepts : Sink.Accepts taken sink) :
    ∃ after last, archive.readRange sink start stop =
        .ok ((Image.copied (archive.placement.region contents) (Piece.ofRange start stop)).reply,
          after, last) ∧
      taken last = taken sink ++
        (Image.copied (archive.placement.region contents) (Piece.ofRange start stop)).written := by
  obtain ⟨after, last, run, _, _, moved⟩ :=
    copyRange_copied valid serves Sink.Accepts.perfect sink accepts start stop inside
  refine ⟨after, last, ?_, moved⟩
  rw [readRange_eq_copyRange archive ordered inside]
  exact run

end

/-- A range of a stored stream can be read and copied, whatever the store holds. If the region of the
stream is all there, both give the same bytes, and either both come to the end of the range or both
fail with the mismatch of the first damaged chunk of the range. However much is there, if the reader
comes to the end, so does the copy, with the same bytes. -/
theorem reader_and_copy_agree (archive : Archive σ) (contents : Bytes) (start stop : Nat)
    (valid : archive.placement.validate = .ok ())
    (serves : ReadableStore.Serves archive.store contents)
    (ordered : start < stop) (inside : stop ≤ archive.logicalSize) :
    ∃ reader bytes progress, archive.reader start stop = .ok (.ok reader) ∧
      Source.DrainsTo reader bytes progress ∧
      ∀ (κ : Type) [Sink κ] (taken : κ → Bytes) (sink : κ), Sink.Accepts taken sink →
        ∃ written reply after last, archive.readRange sink start stop = .ok (reply, after, last) ∧
          taken last = taken sink ++ written ∧
          (progress = .ended →
            written = bytes ∧ reply = .ok () ∧ bytes.length = stop - start) ∧
          (archive.placement.base + encodedLength archive.logicalSize ≤ contents.length →
            written = bytes ∧
              ((progress = .ended ∧ reply = .ok () ∧ bytes.length = stop - start ∧
                  Image.Verifies (archive.placement.region contents) start stop) ∨
                ∃ index stored actual error, progress = .failed error ∧
                  StreamError.ofIo error = .fault (.damage (.checksumMismatch stored actual)) ∧
                  reply = .error (.fault (.damage (.checksumMismatch stored actual))) ∧
                  Image.FirstDamaged (archive.placement.region contents) start stop index
                    (.checksumMismatch stored actual) ∧
                  bytes.length = payloadLength * index - start)) := by
  have bounded : (archive.placement.region contents).length ≤ encodedLength archive.logicalSize :=
    archive.placement.length_region_le contents
  obtain ⟨reader, created, yields⟩ := reader_yields valid serves (Nat.le_of_lt ordered) inside
  have complete := @Image.copied_complete _ _ _ _ bounded ordered inside
  have damaged := @Image.copied_damaged _ _ _ _ bounded ordered inside
  generalize Image.ranged archive.logicalSize (archive.placement.region contents) start stop =
    shown at *
  refine ⟨reader, _, _, created, yields.drainsTo, ?_⟩
  intro κ _ taken sink accepts
  obtain ⟨after, last, run, moved⟩ :=
    readRange_copied valid serves (Nat.le_of_lt ordered) inside accepts
  refine ⟨_, _, after, last, run, moved, ?ended, ?long⟩
  case ended =>
    intro ended
    cases failure : shown.failure with
    | some error =>
      rw [failure] at ended
      cases ended
    | none =>
      obtain ⟨copied, came, _⟩ := complete failure
      rw [copied]
      exact ⟨rfl, rfl, came⟩
  case long =>
    intro long
    -- With all of the region there, nothing but damage stops either of the two.
    have all : encodedLength archive.logicalSize ≤ (archive.placement.region contents).length := by
      rw [Placement.region, List.length_take, List.length_drop]
      exact Nat.le_min.mpr ⟨Nat.le_refl _, Nat.le_sub_of_add_le' long⟩
    cases failure : shown.failure with
    | none =>
      obtain ⟨copied, came, sound⟩ := complete failure
      rw [copied]
      exact ⟨rfl, .inl ⟨rfl, rfl, came, sound⟩⟩
    | some error =>
      obtain ⟨index, stored, actual, rfl, copied, first, came⟩ := damaged all failure
      rw [copied]
      exact ⟨rfl, .inr ⟨index, stored, actual, _, rfl, rfl, rfl, first, came⟩⟩

/-- Three bytes, the last of which has changed under its checksum, among others. Of the last two of them
neither a reader nor a copy gives any. -/
theorem changed_byte_stops_both :
    let archive : Archive Medium := ⟨⟨⟨9 :: ((Checksum.of [1, 2, 3]).header ++ [1, 2, 4] ++ [7])⟩,
      true, [.limit 1, .fail (.bare .interrupted)], [], []⟩, ⟨1, 3⟩, .zero⟩
    let damage : Damage := .checksumMismatch (Crc32.digest [1, 2, 3]) (Crc32.digest [1, 2, 4])
    ∃ reader error, archive.reader 1 3 = .ok (.ok reader) ∧
      Source.DrainsTo reader [] (.failed error) ∧ StreamError.ofIo error = .fault (.damage damage) ∧
      ∃ after last, archive.readRange (Outlet.fresh [.limit 1] []) 1 3 =
        .ok (.error (.fault (.damage damage)), after, last) ∧ last.taken = [] := by
  intro archive damage
  have serves : ReadableStore.Serves archive.store archive.store.contents.bytes :=
    Medium.serves (by decide)
  obtain ⟨reader, bytes, progress, created, drains, copies⟩ := reader_and_copy_agree archive _ 1 3
    (Placement.validate_eq_ok_iff.mpr (by decide)) serves (by decide) (by decide)
  obtain ⟨written, reply, after, last, run, moved, _, agree⟩ :=
    copies Outlet Outlet.taken (Outlet.fresh [.limit 1] []) (Outlet.accepts (by decide))
  have region : archive.placement.region archive.store.contents.bytes =
      (Checksum.of [1, 2, 3]).header ++ [1, 2, 4] := List.take_left' (by decide)
  have damaged : Frame.verify (Image.chunk (archive.placement.region archive.store.contents.bytes) 0) =
      .error damage := by
    rw [region, Image.chunk, Nat.mul_zero, List.drop_zero, List.take_of_length_le (by decide)]
    exact Frame.verify_of_ne (by decide) (by decide +kernel)
  obtain ⟨rfl, ⟨_, _, _, verified⟩ | ⟨index, stored, actual, error, rfl, carried, rfl, first, came⟩⟩ :=
    agree (by decide)
  · obtain ⟨sum, good⟩ := verified 0 (by decide) (by decide)
    cases damaged.symm.trans good
  · have before := first.before
    obtain rfl : index = 0 := by
      simp only [payloadLength] at before
      omega
    obtain rfl : written = [] := List.length_eq_zero_iff.mp came
    have same : Damage.checksumMismatch stored actual = damage :=
      Except.error.inj (first.damaged.symm.trans damaged)
    rw [same] at carried run
    exact ⟨reader, error, created, drains, carried, after, last, run, moved⟩

end Archive

end SealedStream
