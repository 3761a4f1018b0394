import SealedStream.Proofs.AppendStates

/-!
# Crash safety of an append

An append writes the header of the chunk it fills up after all else. So wherever it is cut, the old
stream can be read as if nothing had happened, as long as no byte of that header has been written;
and once one has, everything else is in place. What is between the two headers decodes to neither
stream by mistake: a header that is partly new either is one of the two or does not match its chunk.
`Appending.crash_safe` says so of every cut of every run.
-/
namespace SealedStream

open Layout

/-- What a device with these contents hands out when the stream of `size` bytes at `base` is decoded
to its end, whatever the device does short of failing and whatever buffers are used. -/
def Memory.Decodes (memory : Memory) (base size : Nat) (outcome : Source.Drained) : Prop :=
  ∀ (δ : Type) [ReadableStore δ] (device : δ) (scratch : Scratch),
    ReadableStore.Serves device memory.bytes →
      ∃ reader, RangeReader.create device base 0 size size scratch = .ok (.ok reader) ∧
        ∀ rooms : List Nat, (∀ room ∈ rooms, 0 < room) → size < rooms.length →
          ∃ last, Source.drain reader rooms = .ok (outcome, last)

/-- How decoding ends that has come to a damaged chunk. -/
def Source.Drained.mismatch (bytes : Bytes) (stored actual : UInt32) : Source.Drained :=
  ⟨bytes, .failed (.carrying (.damage (.checksumMismatch stored actual)))⟩

theorem Memory.decodes_of_unpack {before image rest : Bytes} {size : Nat} {unpacked : Unpacked}
    (length : image.length = encodedLength size)
    (fits : before.length + encodedLength size < offsetLimit)
    (unpacking : Image.unpack size image = unpacked) (bounded : unpacked.bytes.length ≤ size) :
    (Memory.mk (before ++ image ++ rest)).Decodes before.length size
      ⟨unpacked.bytes, .ofFailure (unpacked.failure.map DecodeError.toFinal)⟩ := by
  intro δ _ device scratch serves
  obtain ⟨reader, created, yields⟩ := RangeReader.create_whole scratch serves fits
  rw [List.append_assoc, List.drop_left, ← length, List.take_left, unpacking] at yields
  refine ⟨reader, created, ?_⟩
  intro rooms positive enough
  exact yields.drain_all positive (by omega)

/-- Bytes that are replaced by as many change nothing elsewhere. -/
theorem getElem?_replace {front middle other back : Bytes} (same : other.length = middle.length)
    {position : Nat}
    (outside : position < front.length ∨ front.length + middle.length ≤ position) :
    (front ++ other ++ back)[position]? = (front ++ middle ++ back)[position]? := by
  rw [List.append_assoc, List.append_assoc]
  rcases outside with before | behind
  · rw [List.getElem?_append_left before, List.getElem?_append_left before]
  · rw [List.getElem?_append_right (by omega), List.getElem?_append_right (by omega),
      List.getElem?_append_right (by omega), List.getElem?_append_right (by omega), same]

/-- Decoding an image in which one header was replaced brings all of its data, or the chunks before
that one and then a mismatch. -/
theorem Memory.decodes_of_header {before chunks header payload rest tail now data : Bytes}
    (view : now = before ++ (Image.encode chunks ++ header ++ payload ++ Image.encode rest) ++ tail)
    (whole : chunks ++ payload ++ rest = data)
    (aligned : payloadLength ∣ chunks.length) (length : header.length = headerLength)
    (nonempty : payload ≠ []) (small : payload.length ≤ payloadLength)
    (full : payload.length = payloadLength ∨ rest = [])
    (fits : before.length + encodedLength data.length < offsetLimit) :
    (Memory.mk now).Decodes before.length data.length ⟨data, .ended⟩ ∨
      ∃ stored actual,
        (Memory.mk now).Decodes before.length data.length (.mismatch chunks stored actual) := by
  subst view whole
  have size : (Image.encode chunks ++ header ++ payload ++ Image.encode rest).length =
      encodedLength (chunks ++ payload ++ rest).length := by
    rw [← Image.length_encode, List.append_assoc chunks, Image.encode_append aligned,
      Image.encode_append_block nonempty small full]
    simp only [List.length_append, Frame.length_ofPayload, length]
    omega
  rcases Image.unpack_of_header aligned length nonempty small full with
    all | ⟨stored, actual, damaged⟩
  · exact .inl (decodes_of_unpack size fits all (Nat.le_refl _))
  · refine .inr ⟨stored, actual, decodes_of_unpack size fits damaged ?_⟩
    rw [List.append_assoc, List.length_append]
    exact Nat.le_add_right _ _

namespace Midway

variable {before old data after now : Bytes} {touched : Bool}

/-- A store with a header that is partly new is, away from that header, a store with any other. -/
theorem header_elsewhere {chunks header other rest : Bytes} {position : Nat}
    (aligned : chunks.length = payloadLength * chunkIndex old.length)
    (some : offsetInChunk old.length ≠ 0) (length : header.length = headerLength)
    (same : other.length = headerLength)
    (outside : ¬ InTailHeader before.length old.length position) :
    (before ++ Image.encode chunks ++ header ++ rest)[position]? =
      (before ++ Image.encode chunks ++ other ++ rest)[position]? := by
  have front : (before ++ Image.encode chunks).length =
      before.length + chunkLength * chunkIndex old.length := by
    rw [List.length_append, Image.length_encode, aligned, encodedLength_full]
  apply getElem?_replace (length.trans same.symm)
  rw [front, same]
  by_cases ahead : position < before.length + chunkLength * chunkIndex old.length
  · exact .inl ahead
  · exact .inr (Nat.le_of_not_lt fun inside => outside ⟨some, Nat.le_of_not_lt ahead, inside⟩)

theorem length_mixed {payload : Bytes} (some : offsetInChunk old.length ≠ 0) (count : Nat) :
    ((Appending.tailHeader payload old.length data).take count ++
      (Checksum.of payload).header.drop count).length = headerLength := by
  rw [List.length_append, List.length_take, List.length_drop, Appending.length_tailHeader _ some,
    Checksum.length_header]
  omega

theorem elsewhere_of_body {part : Bytes} (front : part <+: Appending.body old.length data)
    {position : Nat}
    (away : position < before.length + encodedLength old.length ∨
      before.length + encodedLength (old.length + data.length) ≤ position) :
    (before ++ Image.encode old ++ part ++ after.drop part.length)[position]? =
      (before ++ Image.encode old ++ after)[position]? := by
  have bound := front.length_le
  have extent := Appending.length_body old.length data
  have start : (before ++ Image.encode old).length = before.length + encodedLength old.length := by
    rw [List.length_append, Image.length_encode]
  rw [← start] at away
  rw [List.append_assoc (before ++ Image.encode old)]
  rcases away with ahead | behind
  · rw [List.getElem?_append_left ahead, List.getElem?_append_left ahead]
  · have place : part.length + (position - (before ++ Image.encode old).length - part.length) =
        position - (before ++ Image.encode old).length := by omega
    rw [List.getElem?_append_right (by omega), List.getElem?_append_right (by omega),
      List.getElem?_append_right (by omega), List.getElem?_drop, place]

/-- Away from the header and the new bytes, everything is as it was. -/
theorem elsewhere (midway : Midway before old data after touched now) {position : Nat}
    (away : position < before.length + encodedLength old.length ∨
      before.length + encodedLength (old.length + data.length) ≤ position)
    (outside : ¬ InTailHeader before.length old.length position) :
    now[position]? = (before ++ Image.encode old ++ after)[position]? := by
  cases midway with
  | body part front => exact elsewhere_of_body front away
  | header chunks payload count split aligned length nonempty positive bound =>
    have some := offset_ne_zero length nonempty
    have frame : Image.encode old = Image.encode chunks ++ Frame.ofPayload payload := by
      rw [split]
      exact Image.encode_last ⟨_, aligned⟩ nonempty (length ▸ Nat.le_of_lt (offsetInChunk_lt _))
    rw [List.append_assoc _ payload, List.append_assoc _ (payload ++ _),
      header_elsewhere aligned some (length_mixed some count)
        (Checksum.length_header (Checksum.of payload)) outside]
    -- The bytes away from the header are those of a store with the old header and all new bytes.
    have prior : (before ++ Image.encode old ++ Appending.body old.length data ++
        after.drop (Appending.body old.length data).length)[position]? =
        (before ++ Image.encode old ++ after)[position]? :=
      elsewhere_of_body (List.prefix_refl _) away
    rw [← prior, frame, Frame.ofPayload]
    simp only [List.append_assoc]

/-- Once the header has been touched, everything but the header is as it will be. -/
theorem complete (midway : Midway before old data after true now) {position : Nat}
    (start : before.length ≤ position)
    (stop : position < before.length + encodedLength (old.length + data.length))
    (outside : ¬ InTailHeader before.length old.length position) :
    now[position]? = (Image.encode (old ++ data))[position - before.length]? := by
  cases midway with
  | header chunks payload count split aligned length nonempty positive bound =>
    have some := offset_ne_zero length nonempty
    have whole := Image.encode_append_body ⟨_, aligned⟩ nonempty
      (length ▸ offsetInChunk_lt old.length) data
    have header_length := Appending.length_tailHeader payload some data
    have size : (Image.encode (old ++ data)).length = encodedLength (old.length + data.length) := by
      rw [Image.length_encode, List.length_append]
    rw [← split] at whole
    rw [List.append_assoc _ payload, List.append_assoc _ (payload ++ _),
      header_elsewhere aligned some (length_mixed some count) header_length outside]
    -- With the whole new header in it, the store would hold the longer stream.
    have image : before ++ Image.encode chunks ++ Appending.tailHeader payload old.length data ++
        (payload ++ Appending.body old.length data ++
          after.drop (Appending.body old.length data).length) =
        before ++ (Image.encode (old ++ data) ++
          after.drop (Appending.body old.length data).length) := by
      rw [whole]
      simp only [List.append_assoc]
    rw [image, List.getElem?_append_right start, List.getElem?_append_left (by omega)]

theorem decodes_old (midway : Midway before old data after touched now)
    (fits : before.length + encodedLength old.length < offsetLimit) :
    (Memory.mk now).Decodes before.length old.length ⟨old, .ended⟩ ∨
      touched = true ∧ ∃ stored actual, (Memory.mk now).Decodes before.length old.length
        (.mismatch (old.take (payloadLength * chunkIndex old.length)) stored actual) := by
  cases midway with
  | body part front =>
    left
    rw [List.append_assoc _ part]
    exact Memory.decodes_of_unpack (Image.length_encode old) fits (Image.unpack_encode old)
      (Nat.le_refl _)
  | header chunks payload count split aligned length nonempty positive bound =>
    have some := offset_ne_zero length nonempty
    have front : old.take (payloadLength * chunkIndex old.length) = chunks := by
      rw [← aligned, split, List.take_left]
    have mixed : ((Appending.tailHeader payload old.length data).take count ++
        (Checksum.of payload).header.drop count).length = headerLength := length_mixed some count
    generalize (Appending.tailHeader payload old.length data).take count ++
      (Checksum.of payload).header.drop count = header at *
    have view : before ++ Image.encode chunks ++ header ++ payload ++
        Appending.body old.length data ++ after.drop (Appending.body old.length data).length =
        before ++ (Image.encode chunks ++ header ++ payload ++ Image.encode []) ++
          (Appending.body old.length data ++
            after.drop (Appending.body old.length data).length) := by
      -- Seen at the old size, the payload ends the stream and the new bytes are behind it.
      simp only [List.append_assoc, Image.encode_nil, List.nil_append]
    rw [front]
    exact (Memory.decodes_of_header view (by rw [List.append_nil, split]) ⟨_, aligned⟩ mixed nonempty
      (length ▸ Nat.le_of_lt (offsetInChunk_lt _)) (.inr rfl) fits).imp_right fun damaged =>
        ⟨rfl, damaged⟩

theorem decodes_new (midway : Midway before old data after true now)
    (fits : before.length + encodedLength (old.length + data.length) < offsetLimit) :
    (Memory.mk now).Decodes before.length (old.length + data.length) ⟨old ++ data, .ended⟩ ∨
      ∃ stored actual, (Memory.mk now).Decodes before.length (old.length + data.length)
        (.mismatch (old.take (payloadLength * chunkIndex old.length)) stored actual) := by
  cases midway with
  | header chunks payload count split aligned length nonempty positive bound =>
    have some := offset_ne_zero length nonempty
    have front : old.take (payloadLength * chunkIndex old.length) = chunks := by
      rw [← aligned, split, List.take_left]
    have mixed : ((Appending.tailHeader payload old.length data).take count ++
        (Checksum.of payload).header.drop count).length = headerLength := length_mixed some count
    generalize (Appending.tailHeader payload old.length data).take count ++
      (Checksum.of payload).header.drop count = header at *
    -- Seen at the new size, the payload goes on with the bytes that fill up its chunk.
    obtain ⟨block, block_small, full⟩ :=
      Image.filled_block nonempty (length ▸ offsetInChunk_lt old.length) data
    rw [length] at block block_small full
    have view : before ++ Image.encode chunks ++ header ++ payload ++
        Appending.body old.length data ++ after.drop (Appending.body old.length data).length =
        before ++ (Image.encode chunks ++ header ++
          (payload ++ data.take (payloadLength - offsetInChunk old.length)) ++
            Image.encode (data.drop (payloadLength - offsetInChunk old.length))) ++
          after.drop (Appending.body old.length data).length := by
      rw [Appending.body, if_neg some]
      simp only [List.append_assoc]
    have whole : chunks ++ (payload ++ data.take (payloadLength - offsetInChunk old.length)) ++
        data.drop (payloadLength - offsetInChunk old.length) = old ++ data := by
      rw [split, List.append_assoc, List.append_assoc, List.take_append_drop, List.append_assoc]
    rw [front, ← List.length_append]
    exact Memory.decodes_of_header view whole ⟨_, aligned⟩ mixed block block_small full
      (by rw [List.length_append]; exact fits)

end Midway

/-- What holds of a store in the middle of an append of `count` bytes to a stream of `old`, if `given`
are the bytes that the source has given by the end. -/
structure Survived (start now : Memory) (base count : Nat) (old given : Bytes) (touched : Prop) :
    Prop where
  elsewhere : ∀ position,
    position < base + encodedLength old.length ∨
      base + encodedLength (old.length + count) ≤ position →
    ¬ InTailHeader base old.length position → now.bytes[position]? = start.bytes[position]?
  complete : touched → given.length = count ∧ ∀ position, base ≤ position →
    position < base + encodedLength (old.length + count) →
    ¬ InTailHeader base old.length position →
      now.bytes[position]? = (Image.encode (old ++ given))[position - base]?
  decodes_old : now.Decodes base old.length ⟨old, .ended⟩ ∨ touched ∧ ∃ stored actual,
    now.Decodes base old.length
      (.mismatch (old.take (payloadLength * chunkIndex old.length)) stored actual)
  decodes_new : touched →
    now.Decodes base (old.length + count) ⟨old ++ given, .ended⟩ ∨ ∃ stored actual,
      now.Decodes base (old.length + count)
        (.mismatch (old.take (payloadLength * chunkIndex old.length)) stored actual)

theorem Survived.of_midway {start now : Memory} {before old data after : Bytes} {touched : Bool}
    (stored : start.bytes = before ++ Image.encode old ++ after)
    (midway : Midway before old data after touched now.bytes)
    (fits : before.length + encodedLength (old.length + data.length) < offsetLimit) :
    Survived start now before.length data.length old data (touched = true) where
  elsewhere position away outside := by
    rw [stored]
    exact midway.elsewhere away outside
  complete header := by
    subst header
    exact ⟨rfl, fun position => midway.complete⟩
  decodes_old :=
    midway.decodes_old (Nat.lt_of_le_of_lt
      (Nat.add_le_add_left (encodedLength_mono (Nat.le_add_right _ _)) _) fits)
  decodes_new header := by
    subst header
    exact midway.decodes_new fits

/-- Nothing but the given bytes matters, and those only once the header has been touched. -/
theorem Survived.congr {start now : Memory} {base count : Nat} {old given other : Bytes}
    {touched touched' : Prop} (survived : Survived start now base count old given touched)
    (same : touched ↔ touched') (known : touched → given = other) :
    Survived start now base count old other touched' where
  elsewhere := survived.elsewhere
  complete header := known (same.mpr header) ▸ survived.complete (same.mpr header)
  decodes_old := survived.decodes_old.imp_right fun ⟨header, damaged⟩ => ⟨same.mp header, damaged⟩
  decodes_new header := known (same.mpr header) ▸ survived.decodes_new (same.mpr header)

/-- A stream in a store is between what is before and what is behind it. -/
theorem Memory.split_of_stored {memory : Memory} {base : Nat} {image : Bytes}
    (long : base + image.length ≤ memory.length)
    (stored : (memory.bytes.drop base).take image.length = image) :
    ∃ before after, before.length = base ∧ memory.bytes = before ++ image ++ after := by
  rw [Memory.length] at long
  refine ⟨memory.bytes.take base, (memory.bytes.drop base).drop image.length,
    List.length_take_of_le (by omega), ?_⟩
  have behind : image ++ (memory.bytes.drop base).drop image.length = memory.bytes.drop base := by
    have split := List.take_append_drop image.length (memory.bytes.drop base)
    rwa [stored] at split
  rw [List.append_assoc, behind, List.take_append_drop]

/-- An append comes back, and wherever its writes are cut, what is in the store has survived: the old
stream decodes as long as the header of its last chunk is untouched, the longer one has come into
being once it has been, and a header that is neither the old nor the new one does not match. -/
theorem Appending.crash_safe {σ ρ : Type} [TracedStore σ] [TracedSource ρ]
    (appending : Appending σ ρ) (base count : Nat) (old : Bytes)
    (long : base + encodedLength old.length ≤ (LawfulStore.contents appending.store).length)
    (stored : ((LawfulStore.contents appending.store).bytes.drop base).take
      (encodedLength old.length) = Image.encode old)
    (fits : base + encodedLength (old.length + count) < offsetLimit) :
    ∃ reply last given accepted, appending.run base old.length count = .ok (reply, last) ∧
      TracedSource.given last.source = TracedSource.given appending.source ++ given ∧
      TracedStore.trace last.store = TracedStore.trace appending.store ++ accepted ∧
      LawfulStore.contents last.store = (LawfulStore.contents appending.store).replay accepted ∧
      ∀ cut, Survived (LawfulStore.contents appending.store)
        ((LawfulStore.contents appending.store).replay (accepted.take cut)) base count old given
        (∃ entry ∈ accepted.take cut, InTailHeader base old.length entry.position) := by
  obtain ⟨reply, last, given, accepted, run, followed, _⟩ :=
    appending.run_follows base old.length count fits
  refine ⟨reply, last, given, accepted, run, followed.moved.given, followed.moved.trace,
    followed.moved.contents, ?_⟩
  rw [← Image.length_encode] at long stored
  obtain ⟨before, after, rfl, view⟩ := Memory.split_of_stored long stored
  -- Up to the header any bytes will do for those that the source has not given.
  obtain ⟨data, wanted⟩ : ∃ data, Completes count given data :=
    ⟨_, exists_completes followed.length 0⟩
  obtain rfl := wanted.length
  intro cut
  have front := (List.take_prefix cut accepted).trans (followed.stored data wanted)
  obtain ⟨touched, midway, same⟩ := Midway.of_prefix view front
  refine (Survived.of_midway view midway fits).congr same ?_
  intro header
  obtain ⟨entry, member, inside⟩ := same.mp header
  exact wanted.eq (given_of_touched followed (List.mem_of_mem_take member) inside)

/-- Two bytes behind three stored ones, on a medium that fails after one byte of the new header. -/
theorem append_of_two_bytes_survives :
    let medium : Medium := ⟨⟨9 :: Image.encode [1, 2, 3] ++ [7]⟩, true, [],
      [.limit 2, .limit 1, .fail (.bare .other)], []⟩
    let appending : Appending (Journal Medium) (Tap Feed) :=
      ⟨.start medium, .start ⟨[4, 5], [.limit 1]⟩, .zero⟩
    ∃ reply last given accepted, appending.run 1 3 2 = .ok (reply, last) ∧
      last.source.given = given ∧ last.store.entries = accepted ∧
      accepted.map Entry.position = [8, 9, 1] ∧
      last.store.store.contents = medium.contents.replay accepted ∧
      ∀ cut, Survived medium.contents (medium.contents.replay (accepted.take cut)) 1 2 [1, 2, 3]
        given (∃ entry ∈ accepted.take cut, InTailHeader 1 3 entry.position) := by
  intro medium appending
  have seen : (appending.run 1 3 2).toOption.map (fun (_, last) =>
      last.store.entries.map Entry.position) = some [8, 9, 1] := by
    decide +kernel
  obtain ⟨reply, last, given, accepted, run, taken, entered, contents, survived⟩ :=
    Appending.crash_safe appending 1 2 [1, 2, 3] (by decide +kernel) (by decide +kernel) (by decide)
  have call : appending.run 1 3 2 = .ok (reply, last) := run
  have all : last.store.entries = accepted := entered
  rw [call] at seen
  have order := Option.some.inj seen
  dsimp only at order
  exact ⟨reply, last, given, accepted, call, taken, all, all ▸ order, contents, survived⟩

end SealedStream
