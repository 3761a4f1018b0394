import SealedStream.Proofs.RangeCopying
import SealedStream.Proofs.RangeReading
import SealedStream.Store.Archive

/-!
# Verifying a stored stream

Verifying copies the whole stream to nowhere. It succeeds if every piece can be cut, and there is a
piece for every chunk that holds a byte of the stream (`Piece.exists_of_inside`); so the chunks are
sealed payloads of the right lengths, and together an image (`Image.exists_encode`). What a verified
archive hands out later, through the decoder as through the copy, is the data of that image.
-/
namespace SealedStream

open Layout

namespace Piece

theorem exists_mem_chunks {index last start chunk : Nat} (behind : index ≤ chunk)
    (before : chunk < last) :
    ∃ piece ∈ chunks index last start, piece.index = chunk ∧ piece.stop = payloadLength := by
  fun_induction chunks index last start with
  | case1 index start more ih =>
    rcases Nat.eq_or_lt_of_le behind with rfl | behind
    · exact ⟨_, List.mem_cons_self, rfl, rfl⟩
    · obtain ⟨piece, member, place⟩ := ih behind
      exact ⟨piece, List.mem_cons_of_mem _ member, place⟩
  | case2 => omega

/-- A copy of a whole stream visits every chunk that holds a byte of it, to the last one in it. -/
theorem exists_of_inside {size index : Nat} (inside : payloadLength * index < size) :
    ∃ piece ∈ ofRange 0 size, piece.index = index ∧
      min (size - payloadLength * index) payloadLength ≤ piece.stop := by
  have split := offset_split size
  have small := offsetInChunk_lt size
  have first : chunkIndex 0 = 0 := rfl
  have front : index ≤ chunkIndex size := by
    apply Nat.le_of_lt_succ
    apply Nat.lt_of_mul_lt_mul_left (a := payloadLength)
    rw [Nat.mul_succ]
    omega
  unfold ofRange
  rw [if_neg (by omega), first]
  by_cases one : 0 = chunkIndex size
  · obtain rfl : index = 0 := by omega
    rw [if_pos one, ← one]
    rw [← one] at split
    exact ⟨_, List.mem_singleton_self _, rfl, by dsimp only; omega⟩
  rw [if_neg one]
  -- The chunk is one of the full ones, or the last one, which then holds a byte.
  rcases Nat.eq_or_lt_of_le front with rfl | full
  · rw [if_pos (by omega)]
    refine ⟨_, List.mem_append_right _ (List.mem_singleton_self _), rfl, ?_⟩
    dsimp only
    omega
  · obtain ⟨piece, member, place, stop⟩ := exists_mem_chunks (Nat.zero_le index) full
    exact ⟨piece, List.mem_append_left _ member, place, by omega⟩

end Piece

namespace Image

theorem chunk_drop (image : Bytes) (index : Nat) :
    chunk (image.drop chunkLength) index = chunk image (index + 1) := by
  rw [chunk, chunk, List.drop_drop, Nat.mul_succ, Nat.add_comm]

/-- Where a chunk of a stream should be there is a sealed payload that reaches as far as it should. -/
def Sound (size : Nat) (image : Bytes) (index : Nat) : Prop :=
  ∃ payload, payload ≠ [] ∧ chunk image index = Frame.ofPayload payload ∧
    min (size - payloadLength * index) payloadLength ≤ payload.length

/-- The chunks behind the first are those of what lies behind it. -/
theorem Sound.behind {size index : Nat} {image : Bytes} (sound : Sound size image (index + 1)) :
    Sound (size - payloadLength) (image.drop chunkLength) index := by
  obtain ⟨payload, nonempty, frame, reaches⟩ := sound
  refine ⟨payload, nonempty, (chunk_drop image index).trans frame, ?_⟩
  rwa [Nat.sub_sub, Nat.add_comm, ← Nat.mul_succ]

/-- Bytes of no more than the encoded size whose chunks are all sound are an image. -/
theorem exists_encode {size : Nat} {image : Bytes} (short : image.length ≤ encodedLength size)
    (sound : ∀ index, payloadLength * index < size → Sound size image index) :
    ∃ data, data.length = size ∧ image = encode data := by
  -- The induction is on the size, which gets less by the payload of the first chunk.
  induction size using Nat.strongRecOn generalizing image with
  | _ size ih =>
    by_cases none : size = 0
    · subst none
      have empty : image = [] := List.length_eq_zero_iff.mp (Nat.le_zero.mp short)
      exact ⟨[], rfl, by rw [empty, encode_nil]⟩
    have positive : 0 < size := Nat.pos_of_ne_zero none
    obtain ⟨payload, nonempty, first, reaches⟩ := sound 0 positive
    rw [chunk, Nat.mul_zero, List.drop_zero] at first
    rw [Nat.mul_zero, Nat.sub_zero] at reaches
    have length := Frame.length_ofPayload payload
    rw [← first, List.length_take, ← headerLength_add_payloadLength] at length
    have next : ∀ index, payloadLength * index < size - payloadLength →
        Sound (size - payloadLength) (image.drop chunkLength) index := by
      intro index inside
      have step : payloadLength * (index + 1) = payloadLength * index + payloadLength :=
        Nat.mul_succ _ _
      exact (sound (index + 1) (by omega)).behind
    have behind := encodedLength_le_behind size
    have fewer : size - payloadLength < size := Nat.sub_lt positive (by decide)
    have rest_short : (image.drop chunkLength).length ≤ encodedLength (size - payloadLength) := by
      rw [List.length_drop]
      omega
    obtain ⟨rest, rest_length, tail⟩ := ih _ fewer rest_short next
    -- A payload that is not full is the last one, and as long as the size says.
    have small : payload.length ≤ payloadLength := by omega
    have exact : payload.length = min size payloadLength := by
      by_cases full : payloadLength ≤ size
      · omega
      · have whole := encodedLength_of_le size positive (Nat.le_of_not_le full)
        omega
    have full : payload.length = payloadLength ∨ rest = [] := by
      by_cases full : payloadLength ≤ size
      · exact .inl (by omega)
      · exact .inr (List.length_eq_zero_iff.mp (by omega))
    refine ⟨payload ++ rest, ?_, ?_⟩
    · rw [List.length_append]
      omega
    · rw [encode_append_block nonempty small full, ← first, ← tail, List.take_append_drop]

/-- Copying a whole stream succeeds if what is copied is an image of that size. -/
theorem reply_copied_whole_iff {size : Nat} {image : Bytes}
    (short : image.length ≤ encodedLength size) :
    (copied image (Piece.ofRange 0 size)).reply = .ok () ↔
      ∃ data, data.length = size ∧ image = encode data := by
  constructor
  · intro done
    apply exists_encode short
    intro index inside
    obtain ⟨piece, member, rfl, reaches⟩ := Piece.exists_of_inside inside
    obtain ⟨bytes, cut⟩ := reply_copied_eq_ok_iff.mp done piece member
    obtain ⟨payload, nonempty, frame, far, _⟩ := Piece.cut_eq_ok_iff.mp cut
    exact ⟨payload, nonempty, frame, Nat.le_trans reaches far⟩
  · rintro ⟨data, rfl, rfl⟩
    rw [copied_encode (Nat.zero_le _) (Nat.le_refl _)]

end Image

/-- The bytes of a store's contents that an encoded stream takes, as far as they are there. -/
def Placement.region (placement : Placement) (contents : Bytes) : Bytes :=
  (contents.drop placement.base).take (encodedLength placement.logicalSize)

theorem Placement.length_region_le (placement : Placement) (contents : Bytes) :
    (placement.region contents).length ≤ encodedLength placement.logicalSize :=
  List.length_take_le _ _

/-- The region of an empty stream is always an image, and that of any other only if it is all
there. -/
theorem Placement.exists_encode_iff {placement : Placement} {contents : Bytes} :
    (∃ data, data.length = placement.logicalSize ∧
        placement.region contents = Image.encode data) ↔
      placement.logicalSize = 0 ∨
        placement.base + encodedLength placement.logicalSize ≤ contents.length ∧
        ∃ data, data.length = placement.logicalSize ∧
          placement.region contents = Image.encode data := by
  constructor
  · rintro ⟨data, length, image⟩
    by_cases none : placement.logicalSize = 0
    · exact .inl none
    have whole := congrArg List.length image
    have positive := le_encodedLength placement.logicalSize
    rw [region, List.length_take, List.length_drop, Image.length_encode, length] at whole
    exact .inr ⟨by omega, data, length, image⟩
  · rintro (none | ⟨_, stored⟩)
    · have short := placement.length_region_le contents
      rw [none, encodedLength_zero, Nat.le_zero, List.length_eq_zero_iff] at short
      exact ⟨[], none.symm, by rw [short, Image.encode_nil]⟩
    · exact stored

namespace Archive

variable {σ κ : Type} [ReadableStore σ] [Sink κ]

/-- What the archive hands out is the data: every range of the stream can be read and copied, and is
the slice of the data. -/
def HandsOut (archive : Archive σ) (data : Bytes) : Prop :=
  ∀ start stop, start ≤ stop → stop ≤ archive.logicalSize →
    (∃ reader, archive.reader start stop = .ok (.ok reader) ∧
      ∀ rooms : List Nat, (∀ room ∈ rooms, 0 < room) →
        ∃ drained last, Source.drain reader rooms = .ok (drained, last) ∧
          drained.bytes <+: (data.take stop).drop start ∧
          (((data.take stop).drop start).length < rooms.length →
            drained = ⟨(data.take stop).drop start, .ended⟩)) ∧
    ∀ (κ : Type) [Sink κ] (taken : κ → Bytes) (sink : κ), Sink.Accepts taken sink →
      ∃ after last, archive.readRange sink start stop = .ok (.ok (), after, last) ∧
        taken last = taken sink ++ (data.take stop).drop start

section

variable {archive : Archive σ} {contents : Bytes} (valid : archive.placement.validate = .ok ())
  (serves : ReadableStore.Serves archive.store contents)

include valid serves

/-- Copying a range of the clipped stream comes to what copying its pieces of the region does, and
leaves the archive as it is. -/
theorem copyRange_copied {Ready : κ → Prop} {Moved : κ → κ → Bytes → Prop}
    (perfect : Sink.Perfect (fun sink _ => Ready sink) Moved) (sink : κ) (ready : Ready sink)
    (start stop : Nat) (inside : stop ≤ archive.logicalSize) :
    ∃ after last, archive.copyRange sink start stop =
        .ok ((Image.copied (archive.placement.region contents) (Piece.ofRange start stop)).reply,
          after, last) ∧
      after.placement = archive.placement ∧ ReadableStore.Serves after.store contents ∧
      Moved sink last
        (Image.copied (archive.placement.region contents) (Piece.ofRange start stop)).written := by
  have fits := Placement.validate_eq_ok_iff.mp valid
  have shorter : encodedLength stop ≤ encodedLength archive.placement.logicalSize :=
    encodedLength_mono inside
  have bounded : (contents.take
      (encodedLength archive.placement.logicalSize + archive.placement.base)).length <
        offsetLimit := by
    rw [List.length_take]
    omega
  -- Of the store that is cut off where the stream ends, the region is all that lies behind the base.
  have region : (contents.take (encodedLength archive.placement.logicalSize +
      archive.placement.base)).drop archive.placement.base = archive.placement.region contents := by
    rw [List.drop_take, Nat.add_sub_cancel, Placement.region]
  have clip : archive.clipped =
      ⟨archive.store, encodedLength archive.placement.logicalSize + archive.placement.base⟩ := by
    rw [clipped, Placement.encodedEnd?_eq_some fits]
    rfl
  obtain ⟨last, run, cuts, _, moved⟩ :=
    (⟨⟨archive.store, _⟩, sink, .zero⟩ : RangeCopy (Clipped σ) κ).run_copied
      (Clipped.stable contents _) perfect ⟨serves, rfl⟩ ready bounded archive.placement.base start
      stop (by omega)
  rw [region] at run moved
  refine ⟨{ archive with store := last.store.store }, last.sink, ?_, rfl, cuts.serves, moved⟩
  rw [copyRange, clip, run]
  rfl

/-- Verifying comes to what copying the pieces of the whole region does. -/
theorem verify_copied :
    ∃ after, archive.verify =
        .ok ((Image.copied (archive.placement.region contents)
            (Piece.ofRange 0 archive.logicalSize)).reply.map fun _ => chunkCount archive.logicalSize,
          after) ∧
      after.placement = archive.placement ∧ ReadableStore.Serves after.store contents := by
  obtain ⟨after, last, run, same, still, _⟩ := copyRange_copied valid serves Sink.drain_perfect
    Drain.mk trivial 0 archive.logicalSize (Nat.le_refl _)
  have size : after.logicalSize = archive.logicalSize := congrArg Placement.logicalSize same
  refine ⟨after, ?_, same, still⟩
  rw [verify, run, Checked.ok_bind]
  dsimp only
  rw [size]
  rfl

/-- An archive whose region is the image of some data hands the data out. -/
theorem handsOut_of_region {data : Bytes} (length : data.length = archive.logicalSize)
    (image : archive.placement.region contents = Image.encode data) : archive.HandsOut data := by
  intro start stop ordered inside
  have fits := Placement.validate_eq_ok_iff.mp valid
  have checked : archive.checkRange start stop = .ok () := by
    rw [checkRange, if_neg (by omega)]
  constructor
  -- A reader decodes the store as it is, a copy goes through the pieces of the clipped store.
  · have stored : (contents.drop archive.placement.base).take (encodedLength data.length) =
        Image.encode data := by
      rw [← image, length]
      rfl
    have place : archive.placement.base + encodedLength data.length < offsetLimit := by
      rw [length, Nat.add_comm]
      exact fits
    obtain ⟨reader, created, yields⟩ := RangeReader.create_slice_of_stored start stop .zero serves
      stored place (by omega) ordered
    refine ⟨reader, ?_, yields.drain_front⟩
    rw [Archive.reader, checked, ← length]
    exact created
  · intro κ _ taken sink accepts
    obtain ⟨after, last, run, _, _, written⟩ :=
      copyRange_copied valid serves Sink.Accepts.perfect sink accepts start stop inside
    rw [image, Image.copied_encode ordered (by omega)] at run written
    refine ⟨after, last, ?_, written⟩
    rw [readRange, checked]
    exact run

end

/-- A reply that only counts is a success exactly if what it counts is one. -/
theorem counted_eq_ok_iff {reply : Except StreamError Unit} {chunks count : Nat} :
    (reply.map fun _ => chunks) = .ok count ↔ count = chunks ∧ reply = .ok () := by
  cases reply <;> simp [Except.map, eq_comm]

/-- Verifying comes back on every store, and with success exactly if the stream is empty or the region
of the store that it takes is there and is the image of some data. The data are then what the archive
hands out as long as its store does not change. Nothing outside of the region has a part in the
answer. -/
theorem verify_decides_image (archive : Archive σ) (contents : Bytes)
    (valid : archive.placement.validate = .ok ())
    (serves : ReadableStore.Serves archive.store contents) :
    ∃ reply after, archive.verify = .ok (reply, after) ∧
      after.placement = archive.placement ∧ ReadableStore.Serves after.store contents ∧
      (∀ count, reply = .ok count ↔ count = chunkCount archive.logicalSize ∧
        (archive.logicalSize = 0 ∨
          archive.placement.base + encodedLength archive.logicalSize ≤ contents.length ∧
          ∃ data, data.length = archive.logicalSize ∧
            archive.placement.region contents = Image.encode data)) ∧
      (∀ count, reply = .ok count →
        (∃ data, data.length = archive.logicalSize ∧
          archive.placement.region contents = Image.encode data) ∧
        ∀ data, data.length = archive.logicalSize →
          archive.placement.region contents = Image.encode data →
        ∀ later : Archive σ, later.placement = archive.placement →
          ReadableStore.Serves later.store contents → later.HandsOut data) ∧
      ∀ (τ : Type) [ReadableStore τ] (other : Archive τ) (others : Bytes),
        other.placement = archive.placement → ReadableStore.Serves other.store others →
        archive.placement.region others = archive.placement.region contents →
        ∃ next, other.verify = .ok (reply, next) := by
  obtain ⟨after, run, same, still⟩ := verify_copied valid serves
  have decides := Image.reply_copied_whole_iff (archive.placement.length_region_le contents)
  refine ⟨_, after, run, same, still, ?_, ?_, ?_⟩
  · intro count
    exact counted_eq_ok_iff.trans
      (and_congr_right fun _ => decides.trans Placement.exists_encode_iff)
  · intro count done
    refine ⟨decides.mp (counted_eq_ok_iff.mp done).2, ?_⟩
    intro data length image later placed serves
    rw [logicalSize, ← placed] at length
    rw [← placed] at valid image
    exact handsOut_of_region valid serves length image
  · intro τ _ other others placed serves region
    rw [← placed] at valid
    obtain ⟨next, run, _⟩ := verify_copied valid serves
    rw [placed, region, logicalSize, placed] at run
    exact ⟨next, run⟩

/-- Three bytes are stored among others, and verified through a medium that splits and interrupts. -/
theorem three_bytes_verified :
    let contents : Bytes := 9 :: (Image.encode [1, 2, 3] ++ [7, 7])
    let archive : Archive Medium :=
      ⟨⟨⟨contents⟩, true, [.limit 1, .fail (.bare .interrupted)], [], []⟩, ⟨1, 3⟩, .zero⟩
    ∃ after, archive.verify = .ok (.ok 1, after) ∧ after.HandsOut [1, 2, 3] := by
  intro contents archive
  have serves : ReadableStore.Serves archive.store contents := Medium.serves (by decide)
  have length : (Image.encode [1, 2, 3]).length = encodedLength 3 := Image.length_encode _
  have region : archive.placement.region contents = Image.encode [1, 2, 3] := List.take_left' length
  have long : 1 + encodedLength 3 ≤ contents.length := by
    rw [List.length_cons, List.length_append, length]
    omega
  have valid : archive.placement.validate = .ok () := Placement.validate_eq_ok_iff.mpr (by decide)
  obtain ⟨reply, after, run, same, still, answers, hands, _⟩ :=
    verify_decides_image archive contents valid serves
  have verified : reply = .ok 1 :=
    (answers 1).mpr ⟨by decide, .inr ⟨long, [1, 2, 3], rfl, region⟩⟩
  refine ⟨after, by rw [run, verified], ?_⟩
  exact (hands 1 verified).2 [1, 2, 3] rfl region after same still

end Archive

end SealedStream
