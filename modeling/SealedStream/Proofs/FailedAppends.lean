import SealedStream.Proofs.AppendLog
import SealedStream.Proofs.RangeAgreement

/-!
# Reading after a failed append

An append that fails leaves the stream as large as it was. Whatever it has written, the old bytes can
still be read, unless it was stopped within the header of the last chunk: then that chunk may not match
its header any more. What lies in the chunks before it can be read also then
(`Archive.failed_append_readable`).
-/
namespace SealedStream

open Layout

namespace Archive

/-- An archive hands out the front of its data if each range that ends there can be read and copied,
and what stops any other range is the damage behind the front. -/
def HandsOutFront {σ : Type} [ReadableStore σ] (archive : Archive σ) (front : Bytes)
    (found : Damage) : Prop :=
  ∀ start stop, start ≤ stop → stop ≤ archive.logicalSize →
    (∃ reader progress, archive.reader start stop = .ok (.ok reader) ∧
      Source.DrainsTo reader ((front.take stop).drop start) progress ∧
      (stop ≤ front.length → progress = .ended) ∧
      (front.length < stop → ∃ error, progress = .failed error ∧
        StreamError.ofIo error = .fault (.damage found))) ∧
    ∀ (κ : Type) [Sink κ] (taken : κ → Bytes) (sink : κ), Sink.Accepts taken sink →
      ∃ after last, archive.readRange sink start stop =
          .ok (if stop ≤ front.length ∨ start = stop then .ok ()
            else .error (.fault (.damage found)), after, last) ∧
        taken last = taken sink ++ (front.take stop).drop start

/-- An archive hands out what comes out of its region, if that comes to the last chunk. -/
theorem handsOutFront_of_unpack {σ : Type} [ReadableStore σ] {archive : Archive σ}
    {contents front : Bytes} {found : Damage} (valid : archive.placement.validate = .ok ())
    (serves : ReadableStore.Serves archive.store contents)
    (stops : Image.unpack archive.logicalSize (archive.placement.region contents) =
      ⟨front, some (.damage found)⟩)
    (last : payloadLength * chunkIndex archive.logicalSize ≤ front.length) :
    archive.HandsOutFront front found := by
  intro start stop ordered inside
  have earlier : chunkIndex start ≤ chunkIndex archive.logicalSize :=
    Nat.div_le_div_right (Nat.le_trans ordered inside)
  have reaches := Nat.le_trans (Nat.mul_le_mul_left payloadLength earlier) last
  constructor
  · obtain ⟨reader, created, yields⟩ := reader_yields valid serves ordered inside
    rw [Image.ranged_front stops reaches ordered] at yields
    refine ⟨reader, _, created, yields.drainsTo, fun within => ?_, fun past => ?_⟩
    · rw [if_pos within]
      rfl
    · rw [if_neg (Nat.not_le_of_lt past)]
      exact ⟨_, rfl, rfl⟩
  · intro κ _ taken sink accepts
    obtain ⟨after, last, run, moved⟩ := readRange_copied valid serves ordered inside accepts
    rw [Image.copied_front stops reaches ordered (archive.placement.length_region_le contents)
      inside] at run moved
    exact ⟨after, last, run, moved⟩

end Archive

/-- A stream whose header has been touched is its whole chunks, four bytes and the last payload. -/
theorem Midway.exists_header {before old data after now : Bytes}
    (midway : Midway before old data after true now) :
    ∃ header payload rest,
      old = old.take (payloadLength * chunkIndex old.length) ++ payload ∧
      payloadLength ∣ (old.take (payloadLength * chunkIndex old.length)).length ∧
      payload ≠ [] ∧ payload.length ≤ payloadLength ∧ header.length = headerLength ∧
      now = before ++ (Image.encode (old.take (payloadLength * chunkIndex old.length)) ++
        (header ++ payload)) ++ rest := by
  cases midway with
  | header chunks payload count split aligned length nonempty positive bound =>
    have some := offset_ne_zero length nonempty
    have front : old.take (payloadLength * chunkIndex old.length) = chunks := by
      rw [← aligned, split, List.take_left]
    rw [front]
    refine ⟨(Appending.tailHeader payload old.length data).take count ++
        (Checksum.of payload).header.drop count, payload, Appending.body old.length data ++
        after.drop (Appending.body old.length data).length, split, ⟨_, aligned⟩, nonempty,
      length ▸ Nat.le_of_lt (offsetInChunk_lt old.length), length_mixed some count, ?_⟩
    simp only [List.append_assoc]

namespace Archive

variable {σ ρ : Type} [TracedStore σ] [TracedSource ρ]

/-- A failed call leaves the stream whole, or torn, with the chunks before the last one readable. -/
theorem Outcome.Lawful.leaves {outcome : Outcome σ ρ} {base : Nat} {log : Bytes}
    (lawful : outcome.Lawful) (failed : outcome.reply.isOk = false)
    (holds : outcome.before.Holds base log) :
    outcome.after.Holds base log ∨ outcome.Torn ∧ ∃ stored actual,
      Image.unpack log.length
          (outcome.after.placement.region (LawfulStore.contents outcome.after.store).bytes) =
        ⟨log.take (payloadLength * chunkIndex log.length),
          some (.damage (.checksumMismatch stored actual))⟩ := by
  by_cases torn : outcome.Torn
  case neg =>
    have whole := lawful.holds holds torn
    rw [Outcome.logged, failed] at whole
    exact .inl (by simpa using whole)
  obtain ⟨placement, long, image⟩ := holds
  rw [← Image.length_encode] at long image
  obtain ⟨before, after, rfl, view⟩ := Memory.split_of_stored long image
  have kept : outcome.after.placement = ⟨before.length, log.length⟩ := by
    rw [lawful.placement, Outcome.logged, failed, logicalSize, placement]
    rfl
  obtain ⟨data, touched, midway, same⟩ := lawful.midway failed placement view
  obtain rfl := same.mpr torn
  obtain ⟨header, payload, rest, split, aligned, nonempty, small, length, bytes⟩ :=
    midway.exists_header
  have frame : (header ++ payload).length = headerLength + payload.length := by
    rw [List.length_append, length]
  have whole := Image.encode_last aligned nonempty small
  rw [← split] at whole
  rcases Image.openFrame_of_header length nonempty with rfl | ⟨stored, actual, bad⟩
  · -- What is partly new is the old header all the same.
    rw [← Frame.ofPayload, ← whole] at bytes
    exact .inl (.of_bytes kept bytes)
  · have lengths := congrArg List.length whole
    rw [List.length_append, Frame.length_ofPayload, ← frame, ← List.length_append,
      Image.length_encode] at lengths
    have stops := Image.unpack_of_bad_frame aligned frame nonempty small (.inr rfl) bad
    rw [List.append_nil, ← split, Image.encode_nil, List.append_nil] at stops
    refine .inr ⟨torn, stored, actual, ?_⟩
    rw [kept, bytes, Placement.region, List.append_assoc, List.drop_left, lengths, List.take_left]
    exact stops

/-- What an archive is when it is read again, on any device that serves what the store holds. -/
structure Reopened {τ : Type} [ReadableStore τ] (after : Archive σ) (later : Archive τ) : Prop where
  placement : later.placement = after.placement
  serves : ReadableStore.Serves later.store (LawfulStore.contents after.store).bytes

/-- An append comes back, and if it fails, then the stream has the size it had, and all of it is handed
out when it is read again. Only where the call has been stopped within the header of the last chunk,
that chunk may not match its header any more; then the stream is handed out up to there. -/
theorem failed_append_readable (archive : Archive σ) (request : Request ρ) (base : Nat)
    (data : Bytes) (valid : archive.placement.validate = .ok ()) (holds : archive.Holds base data) :
    ∃ reply after rest, archive.append request.source request.count = .ok (reply, after, rest) ∧
      (reply.isOk = false → after.placement = archive.placement ∧
        ((∀ (τ : Type) [ReadableStore τ] (later : Archive τ), after.Reopened later →
            later.HandsOut data) ∨
          (⟨archive, request, reply, after, rest⟩ : Outcome σ ρ).Torn ∧ ∃ stored actual,
            ∀ (τ : Type) [ReadableStore τ] (later : Archive τ), after.Reopened later →
              later.HandsOutFront (data.take (payloadLength * chunkIndex data.length))
                (.checksumMismatch stored actual))) := by
  obtain ⟨reply, after, rest, call, lawful⟩ := archive.append_answers request valid
  refine ⟨reply, after, rest, call, fun failed => ?_⟩
  have kept : after.placement = archive.placement := by
    rw [lawful.placement, Outcome.logged, failed]
    rfl
  have size : after.logicalSize = data.length := by rw [logicalSize, kept, holds.placement]
  refine ⟨kept, (lawful.leaves failed holds).imp ?whole ?torn⟩
  case whole =>
    intro whole τ _ later reopened
    apply handsOut_of_region (reopened.placement ▸ lawful.valid) reopened.serves
    · rw [logicalSize, reopened.placement]
      exact size.symm
    · rw [reopened.placement, Placement.region, whole.placement]
      exact whole.image
  case torn =>
    rintro ⟨torn, stored, actual, stops⟩
    refine ⟨torn, stored, actual, fun τ _ later reopened => ?_⟩
    have later_size : later.logicalSize = data.length := by
      rw [logicalSize, reopened.placement]
      exact size
    apply handsOutFront_of_unpack (reopened.placement ▸ lawful.valid) reopened.serves
    · rw [later_size, reopened.placement]
      exact stops
    · have split := offset_split data.length
      rw [later_size, List.length_take]
      omega

/-- An append of two bytes fails at the second of them, and the three bytes before are still there. -/
theorem three_bytes_left_by_failed_append :
    let medium : Medium := ⟨⟨9 :: Image.encode [1, 2, 3] ++ [7]⟩, true, [.limit 5],
      [.limit 1, .fail (.bare .other)], []⟩
    let archive : Archive (Journal Medium) := ⟨.start medium, ⟨1, 3⟩, .zero⟩
    let request : Request (Tap Feed) := ⟨.start ⟨[4, 5], []⟩, 2⟩
    ∃ error after rest, archive.append request.source request.count =
        .ok (.error error, after, rest) ∧ after.logicalSize = 3 ∧
      ∀ (τ : Type) [ReadableStore τ] (later : Archive τ), after.Reopened later →
        later.HandsOut [1, 2, 3] := by
  intro medium archive request
  have seen : (archive.append request.source request.count).toOption.map
      (fun (reply, after, rest) => (reply.isOk,
        (⟨archive, request, reply, after, rest⟩ : Outcome _ _).rewritten)) = some (false, 0) := by
    decide +kernel
  obtain ⟨reply, after, rest, call, left⟩ := failed_append_readable archive request 1 [1, 2, 3]
    (Placement.validate_eq_ok_iff.mpr (by decide))
    ⟨rfl, by decide +kernel, by decide +kernel⟩
  rw [call] at seen
  obtain ⟨failed, untouched⟩ := Prod.mk.inj (Option.some.inj seen)
  obtain ⟨kept, whole | ⟨torn, _⟩⟩ := left failed
  · cases reply with
    | ok _ => cases failed
    | error error => exact ⟨error, after, rest, call, congrArg Placement.logicalSize kept, whole⟩
  · exact absurd torn.2.1 (by rw [untouched]; decide)

/-- Stopped within the header of the last chunk, an append can make the bytes before it unreadable,
though the store reads without a fault: of three bytes none is left. -/
theorem torn_header_unreadable :
    let medium : Medium := ⟨⟨Image.encode [1, 2, 3]⟩, true, [],
      [.limit 2, .limit 1, .fail (.bare .other)], []⟩
    ∃ archive error after rest, mount medium ⟨0, 3⟩ = .ok archive ∧
      archive.append (Feed.ofBytes [4, 5]) 2 = .ok (.error error, after, rest) ∧
      after.logicalSize = 3 ∧
      ReadableStore.Serves after.store after.store.contents.bytes ∧
      ¬ after.HandsOut [1, 2, 3] := by
  intro medium
  have seen : (append (⟨medium, ⟨0, 3⟩, .zero⟩ : Archive Medium) (Feed.ofBytes [4, 5]) 2).toOption.map
      (fun (reply, after, _) => (reply.isOk, after.logicalSize, after.store.readScript.isEmpty,
        (after.readRange (Outlet.fresh [] []) 0 3).toOption.map (·.1.isOk))) =
      some (false, 3, true, some false) := by
    decide +kernel
  cases call : append (⟨medium, ⟨0, 3⟩, .zero⟩ : Archive Medium) (Feed.ofBytes [4, 5]) 2 with
  | error =>
    rw [call] at seen
    cases seen
  | ok outcome =>
    obtain ⟨reply, after, rest⟩ := outcome
    rw [call] at seen
    simp only [Except.toOption, Option.map_some, Option.some.injEq, Prod.mk.injEq,
      List.isEmpty_iff] at seen
    obtain ⟨failed, size, quiet, copy⟩ := seen
    cases reply with
    | ok _ => cases failed
    | error error =>
      refine ⟨_, error, after, rest, rfl, call, size, Medium.serves (by simp [quiet]), ?_⟩
      -- A copy of all three bytes would be a success.
      intro hands
      obtain ⟨last, sink, run, _⟩ := (hands 0 3 (by decide) (by omega)).2 Outlet Outlet.taken
        (Outlet.fresh [] []) (Outlet.accepts (by decide))
      rw [run] at copy
      cases copy

end Archive

end SealedStream
