import SealedStream.Proofs.AppendPlan

/-!
# An append to a damaged last chunk

Before an append fills up the last chunk of a stream it reads the chunk back, and it goes on only if
the chunk is there and its header matches. Otherwise it has called neither the store for a write nor
its source at all (`Appending.Refuses`), so what is damaged stays as it is. Whatever it does write
over the header is the checksum of the payload that it has found good and of the bytes that fill it
up (`Appending.damaged_tail_not_resealed`).
-/
namespace SealedStream

open Layout

/-- The last state of a store comes from the first by reads alone. -/
inductive ReadableStore.ReadsTo {σ : Type} [ReadableStore σ] : σ → σ → Prop
  | still (store : σ) : ReadsTo store store
  | read {store next last : σ} {offset room : Nat} {reply : Except IoError Bytes}
      (call : ReadableStore.readAt store offset room = .ok (reply, next)) (rest : ReadsTo next last) :
      ReadsTo store last

namespace ReadableStore.ReadsTo

variable {σ : Type} [ReadableStore σ] {first middle last : σ}

theorem trans (front : ReadsTo first middle) (back : ReadsTo middle last) : ReadsTo first last := by
  induction front with
  | still => exact back
  | read call _ ih => exact .read call (ih back)

end ReadableStore.ReadsTo

/-- Gathering from a part of a store does nothing but read the store. -/
theorem Span.reads_of_gather {σ : Type} [ReadableStore σ] {span last : Span σ} {need room : Nat}
    {gathered : Gathered} (run : Source.gather span need room = .ok (gathered, last)) :
    ReadableStore.ReadsTo span.store last.store := by
  have step : ∀ (other : Span σ) room reply (next : Span σ),
      ReadableStore.ReadsTo span.store other.store → Source.read other room = .ok (reply, next) →
      ReadableStore.ReadsTo span.store next.store := by
    intro other room reply next reads call
    rcases Span.readAt_of_read call with ⟨_, rfl⟩ | ⟨count, _, inner⟩
    · exact reads
    · exact reads.trans (.read inner (.still _))
  exact Source.gather_keeps step (.still _) run

namespace Appending

/-- Where the last chunk of a stream should be, up to the end of its payload. -/
def tailFrame (contents : Memory) (base size : Nat) : Bytes :=
  (contents.bytes.drop (base + chunkLength * chunkIndex size)).take
    (headerLength + offsetInChunk size)

theorem payload_tailFrame (contents : Memory) (base size : Nat) :
    Frame.payload (tailFrame contents base size) = tailPayload contents base size := by
  rw [tailFrame, Frame.payload, List.drop_take, List.drop_drop, Nat.add_sub_cancel_left, tailPayload]

section

variable {σ ρ : Type} [ReadableStore σ] [WritableStore σ] [Source ρ]

/-- The append fails with this error. Until then it only reads its store, and it does not call its
source. -/
def Refuses (appending : Appending σ ρ) (base size count : Nat) (error : StreamError) : Prop :=
  ∃ last, appending.run base size count = .ok (.error error, last) ∧
    ReadableStore.ReadsTo appending.store last.store ∧ last.source = appending.source

variable {appending : Appending σ ρ} {contents : Memory} {base size : Nat}
  (serves : ReadableStore.Serves appending.store contents.bytes)
  (partial_chunk : offsetInChunk size ≠ 0) (fits : base + encodedLength size < offsetLimit)

include serves partial_chunk fits

omit [WritableStore σ] [Source ρ] in
/-- What is gathered for the last chunk is all that is where it should be. -/
theorem gather_tail :
    ∃ source, Source.gather (tailSpan appending.store base size)
        (headerLength + offsetInChunk size) chunkLength =
          .ok (⟨tailFrame contents base size, none⟩, source) ∧
      ReadableStore.ReadsTo appending.store source.store := by
  have last := encodedLength_last size partial_chunk
  have small := offsetInChunk_lt size
  have extent : base + encodedLength size - (base + chunkLength * chunkIndex size) =
      headerLength + offsetInChunk size := by omega
  have supplies := Span.supplies serves
    (Nat.add_le_add_left (chunkStart_le size size (Nat.le_refl _)) base) fits
  rw [extent, ← tailFrame] at supplies
  obtain ⟨part, rest, source, gathering, split, short, _⟩ :=
    supplies.gather (headerLength + offsetInChunk size) chunkLength
      (Nat.add_le_add_left (Nat.le_of_lt small) headerLength)
  -- There is no more than is needed, so nothing is left behind what was gathered.
  have none : rest = [] := by
    rcases Nat.lt_or_ge part.length (headerLength + offsetInChunk size) with less | enough
    · exact short less
    · have length := congrArg List.length split
      rw [tailFrame, List.length_take, List.length_append] at length
      exact List.eq_nil_of_length_eq_zero (by omega)
  rw [none, List.append_nil] at split
  rw [split]
  exact ⟨source, gathering, Span.reads_of_gather gathering⟩

/-- If the frame of the last chunk does not open, the append refuses. -/
theorem refuses_of_opened {error : DecodeError}
    (bad : Gathered.opened ⟨tailFrame contents base size, none⟩
      (headerLength + offsetInChunk size) = .error error) {refusal : StreamError}
    (same : tailReply (.error error) = .error refusal) (count : Nat) :
    appending.Refuses base size count refusal := by
  have last := encodedLength_last size partial_chunk
  obtain ⟨source, gathering, reads⟩ := gather_tail serves partial_chunk fits
  obtain ⟨scratch, _, _, recovering⟩ := appending.recoverTail_of_gather rfl fits gathering
  rw [bad, same] at recovering
  refine ⟨⟨source.store, appending.source, scratch⟩, ?_, reads, rfl⟩
  rw [run, encodedSize_eq_ok size (by omega), Checked.ok_bind, Checked.add_eq_ok (by omega),
    Checked.ok_bind]
  dsimp only
  rw [if_neg partial_chunk, chunkStart_eq _ (by omega), Checked.add_eq_ok (by omega),
    Checked.ok_bind, recovering]
  rfl

/-- A store that ends within the last chunk is a sink that comes to its end. -/
theorem refuses_missing
    (short : (tailFrame contents base size).length < headerLength + offsetInChunk size)
    (count : Nat) : appending.Refuses base size count (.sink (.bare .unexpectedEof)) := by
  have bad : Gathered.opened ⟨tailFrame contents base size, none⟩
      (headerLength + offsetInChunk size) = .error (.source .unexpectedEof) := by
    rw [Gathered.opened, Gathered.outcome, if_pos short]
  exact refuses_of_opened serves partial_chunk fits bad rfl count

/-- A last chunk with a header that is not that of its payload is a fault. -/
theorem refuses_damaged {stored : Checksum}
    (whole : (tailFrame contents base size).length = headerLength + offsetInChunk size)
    (found : Checksum.ofHeader? (tailFrame contents base size) = some stored)
    (differs : stored ≠ Checksum.of (Frame.payload (tailFrame contents base size))) (count : Nat) :
    appending.Refuses base size count (.fault (.damage (.checksumMismatch stored.value
      (Checksum.of (Frame.payload (tailFrame contents base size))).value))) := by
  have bad : Gathered.opened ⟨tailFrame contents base size, none⟩
      (headerLength + offsetInChunk size) = .error (.damage (.checksumMismatch stored.value
        (Checksum.of (Frame.payload (tailFrame contents base size))).value)) := by
    -- The header was read, so the frame is that header and a payload.
    obtain ⟨payload, view⟩ := Checksum.ofHeader?_eq_some_iff.mp found
    rw [view, List.length_append, Checksum.length_header] at whole
    rw [view, Frame.payload_header_append] at differs ⊢
    rw [Gathered.opened_header_append stored (List.length_pos_iff.mp (by omega)) (by omega),
      if_neg differs]
  exact refuses_of_opened serves partial_chunk fits bad rfl count

end

section

variable {σ ρ : Type} [TracedStore σ] [TracedSource ρ]

/-- What an append stores over the header of the last chunk is the checksum of the old payload and
of the bytes that fill it up. -/
theorem header_of_followed {first last : Devices σ ρ} {payload given : Bytes}
    {base size count : Nat} {accepted : List Entry} (partial_chunk : offsetInChunk size ≠ 0)
    (followed : Followed first last count (plan payload base size) given accepted) :
    accepted.filter (InTailHeader base size ·.position) <+:
      Entry.row (base + chunkLength * chunkIndex size)
        (Checksum.of (payload ++ given.take (payloadLength - offsetInChunk size))).header := by
  by_cases touched : ∃ entry ∈ accepted, InTailHeader base size entry.position
  · -- The header is stored last, so all of the new bytes were taken and the plan is that of them all.
    obtain ⟨entry, member, inside⟩ := touched
    have all := given_of_touched followed member inside
    have front := followed.stored given ⟨all, List.prefix_refl _⟩
    have header := front.filter (InTailHeader base size ·.position)
    have body : (Entry.row (base + encodedLength size) (body size given)).filter
        (InTailHeader base size ·.position) = [] := by
      apply List.filter_eq_nil_iff.mpr
      intro entry member
      simpa using not_inTailHeader_of_mem_row member
    have whole : (Entry.row (base + chunkLength * chunkIndex size)
        (tailHeader payload size given)).filter (InTailHeader base size ·.position) =
          Entry.row (base + chunkLength * chunkIndex size) (tailHeader payload size given) := by
      apply List.filter_eq_self.mpr
      intro entry member
      have place := Entry.position_of_mem_row member
      rw [length_tailHeader _ partial_chunk] at place
      simpa using ⟨partial_chunk, place⟩
    rwa [plan, List.filter_append, body, List.nil_append, whole, tailHeader, if_neg partial_chunk]
      at header
  · -- Else nothing of it was stored.
    have none : accepted.filter (InTailHeader base size ·.position) = [] := by
      apply List.filter_eq_nil_iff.mpr
      intro entry member
      simpa using fun inside => touched ⟨entry, member, inside⟩
    rw [none]
    exact List.nil_prefix

/-- An append to a stream whose last chunk is not full refuses if that chunk is missing or damaged.
What it ever stores over the header of the chunk is the checksum of the payload that lies there and
of the new bytes that fill it up, and before that it has taken all of the new bytes. -/
theorem damaged_tail_not_resealed (appending : Appending σ ρ) (base size count : Nat)
    (serves : ReadableStore.Serves appending.store (LawfulStore.contents appending.store).bytes)
    (partial_chunk : offsetInChunk size ≠ 0) (fits : base + encodedLength size < offsetLimit) :
    let frame := tailFrame (LawfulStore.contents appending.store) base size
    (frame.length < headerLength + offsetInChunk size →
      appending.Refuses base size count (.sink (.bare .unexpectedEof))) ∧
    (∀ stored, frame.length = headerLength + offsetInChunk size →
      Checksum.ofHeader? frame = some stored → stored ≠ Checksum.of (Frame.payload frame) →
      appending.Refuses base size count (.fault (.damage
        (.checksumMismatch stored.value (Checksum.of (Frame.payload frame)).value)))) ∧
    (base + encodedLength (size + count) < offsetLimit →
      ∃ reply last given accepted, appending.run base size count = .ok (reply, last) ∧
        TracedSource.given last.source = TracedSource.given appending.source ++ given ∧
        TracedStore.trace last.store = TracedStore.trace appending.store ++ accepted ∧
        accepted.filter (InTailHeader base size ·.position) <+:
          Entry.row (base + chunkLength * chunkIndex size) (Checksum.of (Frame.payload frame ++
            given.take (payloadLength - offsetInChunk size))).header ∧
        ((∃ entry ∈ accepted, InTailHeader base size entry.position) → given.length = count)) := by
  intro frame
  refine ⟨?_, ?_, ?_⟩
  · intro short
    exact refuses_missing serves partial_chunk fits short count
  · intro stored whole found differs
    exact refuses_damaged serves partial_chunk fits whole found differs count
  · intro room
    obtain ⟨reply, last, given, accepted, run, followed, _⟩ :=
      appending.run_follows base size count room
    rw [← payload_tailFrame] at followed
    refine ⟨reply, last, given, accepted, run, followed.moved.given, followed.moved.trace,
      header_of_followed partial_chunk followed, ?_⟩
    rintro ⟨entry, member, inside⟩
    exact given_of_touched followed member inside

end

/-- A journal is read as its store is. -/
theorem Journal.serves {σ : Type} [ReadableStore σ] {store : σ} {contents : Bytes}
    (serves : ReadableStore.Serves store contents) :
    ReadableStore.Serves (Journal.start store) contents := by
  refine ⟨fun journal => ReadableStore.Serves journal.store contents, serves, ?_⟩
  intro journal serves offset room
  rcases serves.readAt offset room with
    ⟨part, next, call, front, progress, after⟩ | ⟨error, next, call, kind, after⟩
  · exact .inl ⟨part, { journal with store := next }, Checked.bind_eq_ok_iff.mpr ⟨_, call, rfl⟩,
      front, progress, after⟩
  · exact .inr ⟨error, { journal with store := next }, Checked.bind_eq_ok_iff.mpr ⟨_, call, rfl⟩,
      kind, after⟩

/-- Reading a journal is reading its store. -/
theorem Journal.reads {σ : Type} [ReadableStore σ] {first last : Journal σ}
    (reads : ReadableStore.ReadsTo first last) :
    ReadableStore.ReadsTo first.store last.store := by
  induction reads with
  | still => exact .still _
  | read call _ ih => exact .read (Journal.readAt_inner call).1 ih

/-- A medium that is only read enters no write into its record. -/
theorem Medium.writes_of_reads {first last : Medium} (reads : ReadableStore.ReadsTo first last) :
    last.writes = first.writes := by
  induction reads with
  | still => rfl
  | @read medium next _ offset room reply call _ ih =>
    have same : next.writes = medium.writes := by
      replace call := Except.ok.inj call
      unfold Medium.readAt at call
      split at call <;> cases call <;> rfl
    rw [ih, same]

/-- Three stored bytes of which the last was changed: no write is entered into the record of the
medium, and the two new bytes stay in the source. -/
theorem changed_tail_not_resealed :
    let medium : Medium := ⟨⟨9 :: (Checksum.of [1, 2, 3]).header ++ [1, 2, 4]⟩, true,
      [.limit 2, .fail (.bare .interrupted)], [], []⟩
    let appending : Appending (Journal Medium) (Tap Feed) :=
      ⟨.start medium, .start (Feed.ofBytes [5, 6]), .zero⟩
    ∃ stored actual last, appending.run 1 3 2 =
        .ok (.error (.fault (.damage (.checksumMismatch stored actual))), last) ∧
      last.store.store.writes = [] ∧ last.source.given = [] := by
  intro medium appending
  have serves : ReadableStore.Serves (Journal.start medium) medium.contents.bytes :=
    Journal.serves (Medium.serves (by decide))
  obtain ⟨_, damaged, _⟩ :=
    damaged_tail_not_resealed appending 1 3 2 serves (by decide) (by decide)
  obtain ⟨last, run, reads, source⟩ := damaged (Checksum.of [1, 2, 3]) (by decide +kernel)
    (by decide +kernel) (by decide +kernel)
  refine ⟨_, _, last, run, Medium.writes_of_reads (Journal.reads reads), ?_⟩
  rw [source]
  rfl

end Appending

end SealedStream
