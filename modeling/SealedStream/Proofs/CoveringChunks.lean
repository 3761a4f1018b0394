import SealedStream.Proofs.Alike
import SealedStream.Proofs.ArchiveSafety
import SealedStream.Proofs.RangeAgreement

/-!
# A range rests on its chunks

Of a store that holds a stream, a reader of a range and a copy of it never look at more than the
chunks that hold some of the range: not before them, not into the chunk behind them, and not past the
end of the encoded stream. What is compared is how pieces of these chunks are read in full
(`ReadableStore.AlikeWithin`); if that goes alike for two stores, so does everything that becomes of
the range (`Archive.reader_alike`, `Archive.readRange_alike`). Two stores that hold the same bytes in
the place of these chunks are such stores, whatever else is in them (`Archive.range_of_chunks`).
-/
namespace SealedStream

open Layout
open Checked (Alike SameReply SameOutcome)

/-! ### Parts of a store as sources -/

namespace Source

variable {ρ σ : Type} [Source ρ] [ReadableStore σ]

/-- How many bytes a read has brought. -/
def came : Except IoError Bytes → Nat
  | .ok bytes => bytes.length
  | .error _ => 0

/-- A source that reads a store on from `start`, at most up to `stop`. The number is how many bytes it
has taken so far. -/
structure PartOf (part : σ → Nat → ρ) (start stop : Nat) : Prop where
  ended {store : σ} {taken room : Nat} : start + taken = stop → room ≠ 0 →
    read (part store taken) room = .ok (.ok [], part store taken)
  reads {store : σ} {taken room : Nat} : start + taken < stop → room ≠ 0 →
    read (part store taken) room =
      (ReadableStore.readAt store (start + taken) (min room (stop - (start + taken)))).map
        fun (reply, next) => (reply, part next (taken + came reply))

end Source

theorem Probe.read_eq {σ : Type} [ReadableStore σ] {store : σ} {start taken : Nat}
    (fits : start + taken < offsetLimit) (room : Nat) :
    Source.read (⟨store, start, taken⟩ : Probe σ) room =
      (ReadableStore.readAt store (start + taken) room).map
        fun (reply, next) => (reply, ⟨next, start, taken + Source.came reply⟩) := by
  show Probe.read _ room = _
  rw [Probe.read, Checked.add_eq_ok fits, Checked.ok_bind]
  rcases ReadableStore.readAt store (start + taken) room with trap | ⟨error | bytes, next⟩ <;> rfl

namespace Source.PartOf

variable {ρ σ : Type} [Source ρ] [ReadableStore σ] {part : σ → Nat → ρ} {start stop : Nat}
  (part_of : PartOf part start stop) (fits : stop < offsetLimit)

include part_of fits

/-- A part is read on as the store is, but no further than to its end. -/
theorem gather_on (store : σ) (taken need room : Nat) (inside : start + taken ≤ stop)
    (enough : min room (stop - (start + taken)) ≤ need) (le : need ≤ room) :
    Source.gather (part store taken) need room =
      (Source.gather (⟨store, start, taken⟩ : Probe σ) (min room (stop - (start + taken)))
        (min room (stop - (start + taken)))).map
          fun (gathered, probe) => (gathered, part probe.store (taken + gathered.bytes.length)) := by
  -- A read brings bytes, or it was interrupted, which happens only finitely often.
  induction measure : min room (stop - (start + taken)) + ReadableStore.readInterruptions store
    using Nat.strongRecOn generalizing store taken need room with
  | _ bound ih =>
    generalize count : min room (stop - (start + taken)) = wanted at *
    by_cases none : wanted = 0
    · subst none
      rw [Source.gather.eq_def (⟨store, start, taken⟩ : Probe σ), if_pos rfl]
      by_cases wanting : need = 0
      · rw [wanting, Source.gather, if_pos rfl]
        rfl
      · rw [gather_eq_bind _ wanting, part_of.ended (by omega) (by omega)]
        rfl
    · have wanting : need ≠ 0 := by omega
      have reads : Source.read (part store taken) room =
          (ReadableStore.readAt store (start + taken) wanted).map
            fun (reply, next) => (reply, part next (taken + came reply)) :=
        count ▸ part_of.reads (by omega) (by omega)
      have probes := @Probe.read_eq σ _ store start taken (by omega) wanted
      -- The two make the same call to the store, so they go the same way through their loops.
      rcases call : ReadableStore.readAt store (start + taken) wanted with
        trap | ⟨error | bytes, next⟩ <;> rw [call] at reads probes
      · rw [gather_eq_bind _ wanting, gather_eq_bind _ none, reads, probes]
        rfl
      · by_cases interrupted : error.kind = .interrupted
        · have fewer := ReadableStore.readInterruptions_lt call interrupted
          rw [gather_of_interrupted wanting interrupted reads,
            gather_of_interrupted none interrupted probes]
          have again := ih (wanted + ReadableStore.readInterruptions next) (by omega) next taken need
            room (by omega) (by omega) (by omega) (by rw [count])
          rw [count] at again
          exact again
        · rw [@gather_of_failed _ _ _ _ _ _ wanting ⟨error, interrupted⟩ reads,
            @gather_of_failed _ _ _ _ _ _ none ⟨error, interrupted⟩ probes]
          rfl
      · by_cases nothing : bytes = []
        · subst nothing
          rw [gather_of_end wanting reads, gather_of_end none probes]
          rfl
        · have short := ReadableStore.length_le_room call
          have fewer := ReadableStore.readInterruptions_le call
          have positive : 0 < bytes.length := List.length_pos_iff.mpr nothing
          have left : min (room - bytes.length) (stop - (start + (taken + bytes.length))) =
              wanted - bytes.length := by omega
          have further := ih (wanted - bytes.length + ReadableStore.readInterruptions next) (by omega)
            next (taken + bytes.length) (need - bytes.length) (room - bytes.length) (by omega)
            (by omega) (by omega) (by rw [left])
          rw [left] at further
          rw [gather_of_part wanting nothing reads, gather_of_part none nothing probes]
          show Source.gather (part next (taken + bytes.length)) _ _ >>= _ =
            Except.map _ (Source.gather (⟨next, start, taken + bytes.length⟩ : Probe σ) _ _ >>= _)
          rw [further]
          rcases Source.gather (⟨next, start, taken + bytes.length⟩ : Probe σ)
            (wanted - bytes.length) (wanted - bytes.length) with trap | ⟨rest, last⟩
          · rfl
          · simp [Except.map, Nat.add_assoc]

/-- A part is gathered as the piece of the store that it may give is read in full. -/
theorem gather (store : σ) {need room : Nat} (inside : start ≤ stop)
    (enough : min room (stop - start) ≤ need) (le : need ≤ room) :
    Source.gather (part store 0) need room =
      (ReadableStore.readFullAt store start (min room (stop - start))).map
        fun (gathered, next) => (gathered, part next gathered.bytes.length) := by
  rw [part_of.gather_on fits store 0 need room inside enough le, ReadableStore.readFullAt, readFull]
  show _ = Except.map _ (_ >>= _)
  rcases Source.gather (⟨store, start, 0⟩ : Probe σ) (min room (stop - start))
    (min room (stop - start)) with trap | ⟨gathered, probe⟩
  · rfl
  · show Except.ok (gathered, part probe.store (0 + gathered.bytes.length)) = _
    rw [Nat.zero_add]
    rfl

end Source.PartOf

section

variable {σ : Type} [ReadableStore σ]

theorem Span.partOf {start stop : Nat} (fits : stop < offsetLimit) :
    Source.PartOf (fun (store : σ) taken => (⟨store, start + taken, stop⟩ : Span σ)) start stop where
  ended {store taken room} done _ := by
    show Span.read _ room = _
    have left : (⟨store, start + taken, stop⟩ : Span σ).remaining = .ok (stop - (start + taken)) :=
      Checked.sub_eq_ok (Nat.le_of_eq done)
    rw [Span.read, left, Checked.ok_bind, if_pos (by omega)]
    rfl
  reads {store taken room} inside some := by
    show Span.read _ room = _
    have left : (⟨store, start + taken, stop⟩ : Span σ).remaining = .ok (stop - (start + taken)) :=
      Checked.sub_eq_ok (Nat.le_of_lt inside)
    rw [Span.read, left, Checked.ok_bind, if_neg (by omega)]
    cases call : ReadableStore.readAt store (start + taken) (min room (stop - (start + taken))) with
    | error trap => rfl
    | ok result =>
      obtain ⟨reply, next⟩ := result
      cases reply with
      | error error => rfl
      | ok bytes =>
        have short := ReadableStore.length_le_room call
        show Checked.add (start + taken) bytes.length >>= _ = _
        rw [Checked.add_eq_ok (by omega), Nat.add_assoc]
        rfl

/-- Gathering from a part of a store moves it on by what was gathered, which is no more than what is
left of it. -/
theorem Span.place_of_gather {span last : Span σ} {need room : Nat} {gathered : Gathered}
    (fits : span.stop < offsetLimit) (ordered : span.position ≤ span.stop)
    (enough : min room (span.stop - span.position) ≤ need) (le : need ≤ room)
    (run : Source.gather span need room = .ok (gathered, last)) :
    last.position = span.position + gathered.bytes.length ∧ last.stop = span.stop ∧
      gathered.bytes.length ≤ min room (span.stop - span.position) := by
  obtain ⟨store, position, stop⟩ := span
  have split := (Span.partOf fits).gather fits store ordered enough le
  rw [Nat.add_zero, run] at split
  cases piece : ReadableStore.readFullAt store position (min room (stop - position)) with
  | error trap =>
    rw [piece] at split
    cases split
  | ok result =>
    rw [piece] at split
    obtain ⟨_, reading, tail⟩ := Checked.bind_eq_ok_iff.mp piece
    cases tail
    cases split
    exact ⟨rfl, rfl, Source.length_gather_le reading⟩

theorem Clipped.partOf {start stop : Nat} (fits : stop < offsetLimit) :
    Source.PartOf (fun (store : σ) taken => (⟨⟨store, stop⟩, start, taken⟩ : Probe (Clipped σ)))
      start stop where
  ended {store taken room} done _ := by
    have call : ReadableStore.readAt (⟨store, stop⟩ : Clipped σ) (start + taken) room =
        .ok (.ok [], ⟨store, stop⟩) := if_pos (Nat.le_of_eq done.symm)
    rw [Probe.read_eq (by omega), call]
    rfl
  reads {store taken room} inside _ := by
    rw [Probe.read_eq (by omega)]
    show Except.map _ (Clipped.readAt _ _ _) = _
    rw [Clipped.readAt, if_neg (Nat.not_le_of_lt inside)]
    show Except.map _ (ReadableStore.readAt store (start + taken) _ >>= _) = _
    rcases ReadableStore.readAt store (start + taken) (min room (stop - (start + taken)))
      with trap | ⟨reply, next⟩ <;> rfl

/-- A store that is cut off is read in full as the store behind it is, up to the cut. -/
theorem Clipped.readFullAt_eq (store : σ) {offset stop : Nat} (fits : stop < offsetLimit)
    (inside : offset ≤ stop) (room : Nat) :
    ReadableStore.readFullAt (⟨store, stop⟩ : Clipped σ) offset room =
      (ReadableStore.readFullAt store offset (min room (stop - offset))).map
        fun (gathered, next) => (gathered, ⟨next, stop⟩) := by
  rw [ReadableStore.readFullAt, Source.readFull,
    (Clipped.partOf fits).gather fits store inside (Nat.min_le_left _ _) (Nat.le_refl _)]
  rcases ReadableStore.readFullAt store offset (min room (stop - offset))
    with trap | ⟨gathered, next⟩ <;> rfl

end

/-! ### Stores that are alike within a part -/

section

variable {σ τ : Type} [ReadableStore σ] [ReadableStore τ] {Behind : σ → τ → Prop} {low high : Nat}

/-- Of stores that are so related every piece between two offsets is read in full with the same
outcome. -/
def ReadableStore.AlikeWithin (Behind : σ → τ → Prop) (low high : Nat) : Prop :=
  ∀ store store' offset count, Behind store store' → low ≤ offset → offset + count ≤ high →
    Alike (SameReply fun _ => Behind) (readFullAt store offset count)
      (readFullAt store' offset count)

/-- Spans at the same place of two stores that are so related. -/
structure Span.Same (Behind : σ → τ → Prop) (first : Span σ) (second : Span τ) : Prop where
  store : Behind first.store second.store
  position : first.position = second.position
  stop : first.stop = second.stop

variable (alike : ReadableStore.AlikeWithin Behind low high)

include alike

theorem Span.Same.gather {first : Span σ} {second : Span τ} (same : Span.Same Behind first second)
    {need room : Nat} (ordered : first.position ≤ first.stop) (fits : first.stop < offsetLimit)
    (enough : min room (first.stop - first.position) ≤ need) (le : need ≤ room)
    (above : low ≤ first.position)
    (below : first.position + min room (first.stop - first.position) ≤ high) :
    Alike (SameReply fun _ => Span.Same Behind) (Source.gather first need room)
      (Source.gather second need room) := by
  obtain ⟨store, position, stop⟩ := first
  obtain ⟨store', _, _⟩ := second
  obtain ⟨related, rfl, rfl⟩ := same
  dsimp only at ordered fits enough above below
  have pieces := alike store store' position _ related above below
  have split := (Span.partOf fits).gather fits store ordered enough le
  have split' := (Span.partOf fits).gather fits store' ordered enough le
  rw [Nat.add_zero] at split split'
  rw [split, split']
  refine pieces.map ?_
  rintro ⟨gathered, next⟩ ⟨_, next'⟩ ⟨rfl, after⟩
  exact ⟨rfl, after, rfl, rfl⟩

theorem Clipped.readFullAt_alike {store : σ} {store' : τ} (related : Behind store store')
    {offset stop room : Nat} (fits : stop < offsetLimit) (inside : offset ≤ stop) (above : low ≤ offset)
    (below : offset + min room (stop - offset) ≤ high) :
    Alike (SameReply fun _ (first : Clipped σ) (second : Clipped τ) =>
        Behind first.store second.store ∧ first.stop = stop ∧ second.stop = stop)
      (ReadableStore.readFullAt (⟨store, stop⟩ : Clipped σ) offset room)
      (ReadableStore.readFullAt (⟨store', stop⟩ : Clipped τ) offset room) := by
  rw [Clipped.readFullAt_eq store fits inside, Clipped.readFullAt_eq store' fits inside]
  refine (alike store store' offset _ related above below).map ?_
  rintro ⟨gathered, next⟩ ⟨_, next'⟩ ⟨rfl, after⟩
  exact ⟨rfl, after, rfl, rfl⟩

end

/-! ### The chunks of a range -/

namespace Layout

/-- Where in an encoded stream the chunks end that hold what comes before an offset. -/
def coverEnd (stop size : Nat) : Nat :=
  min (chunkLength * (chunkIndex (stop - 1) + 1)) (encodedLength size)

/-- A chunk that starts before the offset, clipped to the stream, lies before that end. -/
theorem chunk_le_coverEnd {index stop size : Nat} (before : payloadLength * index < stop)
    (inside : stop ≤ size) :
    chunkLength * index + min chunkLength (encodedLength size - chunkLength * index) ≤
      coverEnd stop size := by
  have suffix := encodedLength_add index (size - payloadLength * index)
  rw [Nat.add_sub_cancel' (by omega)] at suffix
  simp only [coverEnd, chunkIndex, payloadLength, chunkLength] at *
  omega

theorem chunkStart_le_coverEnd {start stop size : Nat} (ordered : start < stop)
    (inside : stop ≤ size) : chunkLength * chunkIndex start ≤ coverEnd stop size := by
  have split := offset_split start
  have cover := chunk_le_coverEnd (by omega : payloadLength * chunkIndex start < stop) inside
  omega

theorem coverEnd_le (stop size : Nat) : coverEnd stop size ≤ encodedLength size :=
  Nat.min_le_right _ _

/-- What a stream still takes from a chunk on gives the need of a decoder there. -/
theorem need_eq {index size : Nat} (before : payloadLength * index < size) :
    min (size - payloadLength * index + headerLength) chunkLength =
      min chunkLength (encodedLength size - chunkLength * index) := by
  simp only [encodedLength, chunkCount_eq_div, payloadLength, chunkLength, headerLength] at *
  omega

end Layout

namespace SizedDecoder

variable {σ : Type} {base first start stop size index left : Nat} {decoder next : SizedDecoder (Span σ)}

/-- The source of a decoder stands at the start of a chunk, and the stream from there on is still to
be loaded. -/
structure Stands (base size index : Nat) (decoder : SizedDecoder (Span σ)) : Prop where
  position : decoder.source.position = base + chunkLength * index
  stop : decoder.source.stop = base + encodedLength size
  remaining : decoder.remaining = size - payloadLength * index

/-- As long as the decoder may load a chunk, it is one from `first` on. The bytes that wait and `left`
bytes behind them do not go past `stop`, or nothing does. -/
def Keeps (base first stop size left : Nat) (decoder : SizedDecoder (Span σ)) : Prop :=
  decoder.sticky = none → decoder.remaining ≠ 0 → ∃ index, Stands base size index decoder ∧
    first ≤ index ∧ (size ≤ stop ∨ payloadLength * index + left ≤ stop + decoder.pending.length)

theorem Keeps.less (keeps : Keeps base first stop size left decoder) {fewer : Nat}
    (le : fewer ≤ left) : Keeps base first stop size fewer decoder := by
  intro untroubled wanting
  obtain ⟨index, stands, behind, ahead⟩ := keeps untroubled wanting
  exact ⟨index, stands, behind, by omega⟩

/-- Handing out bytes that wait takes them from those that are left. -/
theorem Keeps.hand (keeps : Keeps base first stop size left decoder) {room : Nat}
    (within : size ≤ stop ∨ room ≤ left) :
    Keeps base first stop size (left - (decoder.hand room).1.length) (decoder.hand room).2 := by
  intro untroubled wanting
  obtain ⟨index, ⟨position, ends, remaining⟩, behind, ahead⟩ := keeps untroubled wanting
  refine ⟨index, ⟨position, ends, remaining⟩, behind, ?_⟩
  simp only [SizedDecoder.hand, List.length_take, List.length_drop]
  omega

/-- A decoder remembers that it has failed to load a frame. -/
theorem sticky_of_fetch {ρ : Type} [Source ρ] {decoder next : SizedDecoder ρ} {error : DecodeError}
    (run : decoder.fetch = .ok (.error error, next)) : next.sticky ≠ none := by
  obtain ⟨⟨answer, middle⟩, _, run⟩ := Checked.bind_eq_ok_iff.mp run
  cases answer with
  | ok count => cases run
  | error found =>
    cases run
    exact Option.some_ne_none _

variable [ReadableStore σ] (fits : base + encodedLength size < offsetLimit)

include fits

/-- Loading a frame takes a decoder to the next chunk. -/
theorem Stands.fetch (stands : Stands base size index decoder) (wanting : decoder.remaining ≠ 0)
    {count : Nat} (run : decoder.fetch = .ok (.ok count, next)) :
    next.pending.length = min decoder.remaining payloadLength ∧
      (next.remaining ≠ 0 → Stands base size (index + 1) next) := by
  obtain ⟨position, ends, remaining⟩ := stands
  have before : payloadLength * index < size := by omega
  have need : min (decoder.remaining + headerLength) chunkLength =
      min chunkLength (decoder.source.stop - decoder.source.position) := by
    rw [remaining, need_eq before, position, ends, Nat.add_sub_add_left]
  have suffix := encodedLength_add index (size - payloadLength * index)
  rw [Nat.add_sub_cancel' (Nat.le_of_lt before)] at suffix
  obtain ⟨⟨_, _⟩, loading, _⟩ := Checked.bind_eq_ok_iff.mp run
  obtain ⟨⟨gathered, source⟩, gathering, _⟩ := Checked.bind_eq_ok_iff.mp loading
  obtain ⟨moved, same, bound⟩ := Span.place_of_gather (by omega) (by omega) (Nat.le_of_eq need.symm)
    (Nat.min_le_right _ _) gathering
  obtain ⟨scratch, _, _, loads⟩ := load_of_gather decoder rfl gathering
  cases opened : gathered.opened (min (decoder.remaining + headerLength) chunkLength) with
  | error error =>
    rw [opened] at loads
    cases (fetch_of_error loads).symm.trans run
  | ok payload =>
    rw [opened] at loads
    cases (fetch_of_ok loads).symm.trans run
    -- A frame that opens is all that was needed, so what it holds is a whole chunk or the last one.
    obtain ⟨enough, _, sealed⟩ := Gathered.of_opened opened
    have length := congrArg List.length sealed
    rw [Frame.length_ofPayload] at length
    have exact : gathered.bytes.length = min (decoder.remaining + headerLength) chunkLength :=
      Nat.le_antisymm (Nat.le_trans bound (Nat.le_of_eq need.symm)) enough
    refine ⟨?_, fun more => ⟨?_, same.trans ends, ?_⟩⟩
    · rw [List.length_take]
      simp only [headerLength, chunkLength, payloadLength] at *
      omega
    · simp only [headerLength, chunkLength, payloadLength] at *
      omega
    · simp only [headerLength, chunkLength, payloadLength] at *
      omega

/-- Loading the next chunk keeps that. -/
theorem Keeps.fetch (keeps : Keeps base first stop size left decoder) (idle : decoder.pending = [])
    (untroubled : decoder.sticky = none) (wanting : decoder.remaining ≠ 0) {count : Nat}
    (fetching : decoder.fetch = .ok (.ok count, next)) : Keeps base first stop size left next := by
  obtain ⟨index, stands, behind, ahead⟩ := keeps untroubled wanting
  obtain ⟨loaded, moves⟩ := stands.fetch fits wanting fetching
  intro _ more
  have moved := moves more
  have whole := moved.remaining
  have whole' := stands.remaining
  refine ⟨index + 1, moved, by omega, ?_⟩
  rw [idle, List.length_nil] at ahead
  rw [Nat.mul_succ] at whole ⊢
  omega

/-- A read takes what it brings from the bytes that are left; if it fails, no chunk is loaded any
more. -/
theorem Keeps.read (keeps : Keeps base first stop size left decoder) {room : Nat}
    {reply : Except IoError Bytes} (within : size ≤ stop ∨ room ≤ left)
    (run : decoder.read room = .ok (reply, next)) :
    (∀ bytes, reply = .ok bytes → Keeps base first stop size (left - bytes.length) next) ∧
      ∀ error, reply = .error error → next.sticky ≠ none := by
  -- Only a decoder with nothing to hand out, that has not failed and wants more, loads a chunk.
  unfold SizedDecoder.read at run
  split at run
  next waiting =>
    cases run
    refine ⟨?_, fun _ failed => (by cases failed)⟩
    rintro _ ⟨⟩
    exact keeps.hand within
  next idle =>
    split at run
    next sticky troubled =>
      cases run
      refine ⟨fun _ done => (by cases done), fun _ _ untroubled => ?_⟩
      cases troubled.symm.trans untroubled
    next untroubled =>
      split at run
      next done =>
        cases run
        refine ⟨?_, fun _ failed => (by cases failed)⟩
        rintro _ ⟨⟩
        exact keeps
      next wanting =>
        obtain ⟨⟨answer, middle⟩, fetching, run⟩ := Checked.bind_eq_ok_iff.mp run
        cases answer with
        | error failure =>
          cases run
          refine ⟨fun _ done => (by cases done), fun _ _ => ?_⟩
          exact sticky_of_fetch fetching
        | ok count =>
          cases run
          have further := keeps.fetch fits (not_not.mp idle) untroubled wanting fetching
          refine ⟨?_, fun _ failed => (by cases failed)⟩
          rintro _ ⟨⟩
          exact further.hand within

end SizedDecoder

/-! ### Two runs on the chunks of a range -/

section

variable {σ τ : Type} [ReadableStore σ] [ReadableStore τ] {Behind : σ → τ → Prop}
  {base start stop size left : Nat}

namespace SizedDecoder

/-- Decoders at the same place of stores that are so related. The first of them, and so the other,
keeps to the range. -/
structure Alongside (Behind : σ → τ → Prop) (base first stop size left : Nat)
    (decoder : SizedDecoder (Span σ)) (decoder' : SizedDecoder (Span τ)) : Prop where
  same : Same (Span.Same Behind) decoder decoder'
  keeps : Keeps base first stop size left decoder

variable (fits : base + encodedLength size < offsetLimit) (inside : stop ≤ size)
  (alike : ReadableStore.AlikeWithin Behind (base + chunkLength * chunkIndex start)
    (base + coverEnd stop size))

include fits inside alike

/-- Such decoders read alike: a chunk that is loaded holds some of the range. -/
theorem Alongside.read {decoder : SizedDecoder (Span σ)} {decoder' : SizedDecoder (Span τ)}
    (alongside : Alongside Behind base (chunkIndex start) stop size left decoder decoder') {room : Nat}
    (some : size ≤ stop ∨ 0 < left) (within : size ≤ stop ∨ room ≤ left) :
    Alike (SameReply (Source.Left (Alongside Behind base (chunkIndex start) stop size) left))
      (Source.read decoder room) (Source.read decoder' room) := by
  obtain ⟨same, keeps⟩ := alongside
  have reads : Alike (SameReply fun _ => Same (Span.Same Behind)) (decoder.read room)
      (decoder'.read room) := by
    refine same.read room fun idle untroubled wanting => ?_
    obtain ⟨index, ⟨position, ends, remaining⟩, behind, ahead⟩ := keeps untroubled wanting
    rw [idle, List.length_nil] at ahead
    have before : payloadLength * index < stop := by omega
    have suffix := encodedLength_add index (size - payloadLength * index)
    rw [Nat.add_sub_cancel' (by omega)] at suffix
    have need : decoder.need = min chunkLength (decoder.source.stop - decoder.source.position) := by
      rw [SizedDecoder.need, remaining, need_eq (by omega), position, ends, Nat.add_sub_add_left]
    have above : chunkLength * chunkIndex start ≤ chunkLength * index :=
      Nat.mul_le_mul_left _ behind
    have below := chunk_le_coverEnd before inside
    refine same.source.gather alike (by omega) (by omega) (Nat.le_of_eq need.symm)
      (Nat.min_le_right _ _) (by omega) ?_
    rw [position, ends, Nat.add_sub_add_left]
    omega
  refine reads.with_run.mono ?_
  rintro ⟨reply, next⟩ ⟨_, next'⟩ ⟨run, rfl, after⟩
  obtain ⟨takes, fails⟩ := keeps.read fits within run
  refine ⟨rfl, ?_⟩
  cases reply with
  | ok bytes => exact ⟨after, takes bytes rfl⟩
  | error error =>
    exact fun _ => ⟨after, fun untroubled => absurd untroubled (fails error rfl)⟩

theorem Alongside.shares :
    Source.Shares (Alongside Behind base (chunkIndex start) stop size) where
  less alongside le := ⟨alongside.same, alongside.keeps.less le⟩
  read alongside some within := alongside.read fits inside alike (.inr some) (.inr within)

/-- Decoders of a range that ends with the stream are twins. -/
theorem Alongside.twins : Source.Twins fun decoder decoder' =>
    size ≤ stop ∧ Alongside Behind base (chunkIndex start) stop size 0 decoder decoder' := by
  intro decoder decoder' room ⟨all, alongside⟩
  refine (alongside.read fits inside alike (.inl all) (.inl all)).mono ?_
  rintro ⟨reply, next⟩ ⟨_, next'⟩ ⟨rfl, after⟩
  cases reply with
  | ok bytes =>
    rw [Source.Left, Nat.zero_sub] at after
    exact ⟨rfl, all, after⟩
  | error error => exact ⟨rfl, all, after 0⟩

omit [ReadableStore σ] [ReadableStore τ] fits inside alike in
/-- Decoders are alongside each other when they are opened. -/
theorem Alongside.stored {store : σ} {store' : τ} (related : Behind store store')
    (scratch scratch' : Scratch) (le : payloadLength * chunkIndex start + left ≤ stop) :
    Alongside Behind base (chunkIndex start) stop size left
      (SizedDecoder.stored store base start size scratch)
      (SizedDecoder.stored store' base start size scratch') where
  same := ⟨⟨related, rfl, rfl⟩, rfl, rfl, rfl⟩
  keeps _ _ := ⟨chunkIndex start, ⟨rfl, rfl, rfl⟩, Nat.le_refl _, .inr le⟩

end SizedDecoder

namespace Archive

variable {store : σ} {store' : τ} {placement : Placement} (scratch scratch' : Scratch)
  (valid : placement.validate = .ok ()) (ordered : start < stop)
  (inside : stop ≤ placement.logicalSize) (related : Behind store store')
  (alike : ReadableStore.AlikeWithin Behind (placement.base + chunkLength * chunkIndex start)
    (placement.base + coverEnd stop placement.logicalSize))

include valid ordered inside related alike

/-- Readers of a range of two archives are opened, and they are twins, if the chunks of the range are
read alike. -/
theorem reader_alike :
    ∃ (Twin : RangeReader σ → RangeReader τ → Prop) (reader : RangeReader σ) (reader' : RangeReader τ),
      Source.Twins Twin ∧ Twin reader reader' ∧
        Archive.reader ⟨store, placement, scratch⟩ start stop = .ok (.ok reader) ∧
        Archive.reader ⟨store', placement, scratch'⟩ start stop = .ok (.ok reader') := by
  have fits := Placement.validate_eq_ok_iff.mp valid
  rw [Nat.add_comm] at fits
  have split := offset_split start
  have before : start ≤ placement.logicalSize := Nat.le_trans (Nat.le_of_lt ordered) inside
  have le := Nat.le_of_lt ordered
  have twins := RangeReader.twins (SizedDecoder.Alongside.twins fits inside alike)
    (SizedDecoder.Alongside.shares fits inside alike)
  rw [reader_eq_create ⟨store, placement, scratch⟩ le inside,
    reader_eq_create ⟨store', placement, scratch'⟩ le inside]
  by_cases all : offsetInChunk start = 0 ∧ placement.logicalSize ≤ stop
  · refine ⟨_, _, _, twins, ?_, RangeReader.create_eq_whole store .zero before fits all,
      RangeReader.create_eq_whole store' .zero before fits all⟩
    exact .whole ⟨all.2, .stored related _ _ (by omega)⟩
  · refine ⟨_, _, _, twins, ?_, RangeReader.create_eq_windowed store .zero before fits le all,
      RangeReader.create_eq_windowed store' .zero before fits le all⟩
    refine .windowed ⟨rfl, rfl, .stored related _ _ ?_⟩
    show _ + (offsetInChunk start + (stop - start)) ≤ stop
    omega

/-- A range of two archives is copied alike to the same sink, if the chunks of the range are read
alike. -/
theorem readRange_alike {κ : Type} [Sink κ] (sink : κ) :
    Alike (SameReply fun _ (first : Archive σ × κ) (second : Archive τ × κ) => first.2 = second.2)
      (readRange ⟨store, placement, scratch⟩ sink start stop)
      (readRange ⟨store', placement, scratch'⟩ sink start stop) := by
  have fits := Placement.validate_eq_ok_iff.mp valid
  have le := Nat.le_of_lt ordered
  have cut : placement.encodedEnd?.getD (offsetLimit - 1) =
      placement.base + encodedLength placement.logicalSize := by
    rw [Placement.encodedEnd?_eq_some fits]
    exact Nat.add_comm _ _
  generalize last : placement.base + encodedLength placement.logicalSize = ending at cut
  let Cut (first : Clipped σ) (second : Clipped τ) : Prop :=
    Behind first.store second.store ∧ first.stop = ending ∧ second.stop = ending
  have common : ∀ index, chunkIndex start ≤ index → payloadLength * index < stop →
      RangeCopy.Common Cut placement.base index := by
    rintro index from_start before ⟨store, _⟩ ⟨store', _⟩ offset ⟨related, rfl, rfl⟩ place
    have above : chunkLength * chunkIndex start ≤ chunkLength * index :=
      Nat.mul_le_mul_left _ from_start
    have below := chunk_le_coverEnd before inside
    have suffix := encodedLength_add index (placement.logicalSize - payloadLength * index)
    rw [Nat.add_sub_cancel' (by omega)] at suffix
    rw [chunkStart_eq index (by omega)] at place
    obtain ⟨_, rfl⟩ := Checked.add_eq_ok_iff.mp place
    refine Clipped.readFullAt_alike alike related (by omega) (by omega) (by omega) ?_
    rw [← last, Nat.add_sub_add_left]
    omega
  have same : RangeCopy.Same Cut (⟨⟨store, ending⟩, sink, .zero⟩ : RangeCopy (Clipped σ) κ)
      (⟨⟨store', ending⟩, sink, .zero⟩ : RangeCopy (Clipped τ) κ) := ⟨⟨related, rfl, rfl⟩, rfl⟩
  rw [readRange_eq_copyRange ⟨store, placement, scratch⟩ le inside,
    readRange_eq_copyRange ⟨store', placement, scratch'⟩ le inside, copyRange, copyRange, clipped,
    clipped, cut]
  refine (same.run common).bind ?_
  rintro ⟨reply, copy⟩ ⟨_, copy'⟩ ⟨rfl, _, sinks⟩
  exact .back ⟨rfl, sinks⟩

end Archive

end

/-! ### Stores that hold the same chunks -/

namespace ReadableStore

variable {σ τ : Type} [ReadableStore σ] [ReadableStore τ] {store : σ} {low : Nat} {part : Bytes}

/-- A store that holds `part` from the offset `low` on, whatever else there is in it: a read of which
nothing lies outside hands out a front part of what is behind its offset, and nothing only if there is
no room. It may also be interrupted. -/
def Holds (store : σ) (low : Nat) (part : Bytes) : Prop :=
  ∃ Inv : σ → Prop, Inv store ∧ ∀ store, Inv store → ∀ offset room, low ≤ offset →
    offset + room ≤ low + part.length →
      (∃ bytes next, readAt store offset room = .ok (.ok bytes, next) ∧
        bytes <+: part.drop (offset - low) ∧ (bytes = [] → room = 0) ∧ Inv next) ∨
      (∃ error next, readAt store offset room = .ok (.error error, next) ∧
        error.kind = .interrupted ∧ Inv next)

theorem Holds.readAt (holds : Holds store low part) {offset room : Nat} (above : low ≤ offset)
    (below : offset + room ≤ low + part.length) :
    (∃ bytes next, ReadableStore.readAt store offset room = .ok (.ok bytes, next) ∧
      bytes <+: part.drop (offset - low) ∧ (bytes = [] → room = 0) ∧ Holds next low part) ∨
    (∃ error next, ReadableStore.readAt store offset room = .ok (.error error, next) ∧
      error.kind = .interrupted ∧ Holds next low part) := by
  obtain ⟨Inv, start, keeps⟩ := holds
  rcases keeps store start offset room above below with
    ⟨bytes, next, call, front, progress, after⟩ | ⟨error, next, call, kind, after⟩
  · exact .inl ⟨bytes, next, call, front, progress, Inv, after, keeps⟩
  · exact .inr ⟨error, next, call, kind, Inv, after, keeps⟩

/-- A store holds each part of what it serves. -/
theorem Serves.holds {contents : Bytes} (serves : Serves store contents) {count : Nat}
    (inside : low + count ≤ contents.length) :
    Holds store low ((contents.drop low).take count) := by
  refine ⟨(Serves · contents), serves, ?_⟩
  intro store serves offset room above below
  have length : ((contents.drop low).take count).length = count := by
    rw [List.length_take, List.length_drop]
    omega
  rw [length] at below
  rcases serves.readAt offset room with
    ⟨bytes, next, call, front, progress, after⟩ | ⟨error, next, call, kind, after⟩
  · have short := ReadableStore.length_le_room call
    refine .inl ⟨bytes, next, call, ?_, fun none => ?_, after⟩
    · rw [List.drop_take, List.drop_drop, Nat.add_sub_cancel' above, List.prefix_take_iff]
      exact ⟨front, by omega⟩
    · have bound := progress none
      omega
  · exact .inr ⟨error, next, call, kind, after⟩

/-- A store holds what stands in the middle of what it serves. -/
theorem Serves.holds_middle {front back : Bytes} (serves : Serves store (front ++ part ++ back))
    (before : front.length = low) : Holds store low part := by
  have inside : low + part.length ≤ (front ++ part ++ back).length := by
    rw [List.length_append, List.length_append, before]
    exact Nat.le_add_right _ _
  have held := serves.holds inside
  rwa [List.append_assoc, List.drop_left' before, List.take_left] at held

/-- What such a store holds is read from it in full, however it is split up. -/
theorem Holds.gather (holds : Holds store low part) (fits : low + part.length ≤ offsetLimit)
    (start taken count : Nat) (above : low ≤ start + taken)
    (below : start + taken + count ≤ low + part.length) :
    ∃ last, Source.gather (⟨store, start, taken⟩ : Probe σ) count count =
        .ok (⟨(part.drop (start + taken - low)).take count, none⟩, last) ∧
      Holds last.store low part := by
  -- A read brings bytes, or it was interrupted, which happens only finitely often.
  induction measure : count + readInterruptions store using Nat.strongRecOn
    generalizing store taken count with
  | _ bound ih =>
    by_cases none : count = 0
    · subst none
      exact ⟨_, by rw [Source.gather, if_pos rfl, List.take_zero]; rfl, holds⟩
    · have probes := @Probe.read_eq σ _ store start taken (by omega) count
      rcases holds.readAt above below with
        ⟨bytes, next, call, ⟨rest, split⟩, progress, after⟩ | ⟨error, next, call, kind, after⟩ <;>
        rw [call] at probes
      · have some : bytes ≠ [] := fun empty => none (progress empty)
        have positive : 0 < bytes.length := List.length_pos_iff.mpr some
        have short := ReadableStore.length_le_room call
        have fewer := ReadableStore.readInterruptions_le call
        obtain ⟨last, run, final⟩ := ih (count - bytes.length + readInterruptions next) (by omega)
          after (taken + bytes.length) (count - bytes.length) (by omega) (by omega) rfl
        refine ⟨last, ?_, final⟩
        rw [Source.gather_of_part none some probes]
        show Source.gather (⟨next, start, taken + bytes.length⟩ : Probe σ) _ _ >>= _ = _
        have place : start + (taken + bytes.length) - low = start + taken - low + bytes.length := by
          omega
        rw [run, Checked.ok_bind, place, ← List.drop_drop, ← split, List.drop_left, List.take_append,
          List.take_of_length_le short]
      · have fewer := ReadableStore.readInterruptions_lt call kind
        rw [Source.gather_of_interrupted none kind probes]
        exact ih _ (by omega) after taken count above below rfl

theorem Holds.readFullAt (holds : Holds store low part) (fits : low + part.length ≤ offsetLimit)
    {offset count : Nat} (above : low ≤ offset) (below : offset + count ≤ low + part.length) :
    ∃ next, ReadableStore.readFullAt store offset count =
        .ok (⟨(part.drop (offset - low)).take count, none⟩, next) ∧ Holds next low part := by
  obtain ⟨last, run, after⟩ := holds.gather fits offset 0 count above below
  refine ⟨last.store, ?_, after⟩
  rw [ReadableStore.readFullAt, Source.readFull, run]
  rfl

/-- Stores that hold the same are read alike where they do. -/
theorem Holds.alikeWithin (fits : low + part.length ≤ offsetLimit) :
    AlikeWithin (fun (store : σ) (store' : τ) => Holds store low part ∧ Holds store' low part) low
      (low + part.length) := by
  intro store store' offset count ⟨holds, holds'⟩ above below
  obtain ⟨next, run, after⟩ := holds.readFullAt fits above below
  obtain ⟨next', run', after'⟩ := holds'.readFullAt fits above below
  rw [run, run']
  exact .back ⟨rfl, after, after'⟩

end ReadableStore

/-! ### What becomes of a range -/

namespace Source

variable {ρ ρ' : Type} [Source ρ] [Source ρ'] {Related : ρ → ρ' → Prop} {first : ρ} {second : ρ'}

theorem Twins.drain (twins : Twins Related) (related : Related first second) (rooms : List Nat) :
    Alike (SameReply fun _ => Related) (drain first rooms) (drain second rooms) := by
  induction rooms generalizing first second with
  | nil => exact .back ⟨rfl, related⟩
  | cons room rooms ih =>
    refine (twins first second room related).bind ?_
    rintro ⟨reply, next⟩ ⟨_, next'⟩ ⟨rfl, after⟩
    cases reply with
    | error error => exact .back ⟨rfl, after⟩
    | ok bytes =>
      dsimp only
      split
      next => exact .back ⟨rfl, after⟩
      next =>
        refine (ih after).bind ?_
        rintro ⟨rest, last⟩ ⟨_, last'⟩ ⟨rfl, final⟩
        exact .back ⟨rfl, final⟩

theorem Twins.drainsTo (twins : Twins Related) (related : Related first second) {bytes : Bytes}
    {progress : Progress} (drains : DrainsTo second bytes progress) :
    DrainsTo first bytes progress := by
  intro rooms positive
  obtain ⟨drained, last, run, front, ends⟩ := drains rooms positive
  obtain ⟨⟨_, last'⟩, run', rfl, _⟩ := (twins.drain related rooms).of_ok run
  exact ⟨_, last', run', front, ends⟩

end Source

namespace Archive

variable {σ τ : Type} [ReadableStore σ] [ReadableStore τ]

/-- The chunks that hold some of the range, clipped to the encoded stream, are `part`. -/
structure Covers (archive : Archive σ) (start stop : Nat) (part : Bytes) : Prop where
  length : part.length = coverEnd stop archive.logicalSize - chunkLength * chunkIndex start
  holds : ReadableStore.Holds archive.store
    (archive.placement.base + chunkLength * chunkIndex start) part

/-- A medium with given chunks at an offset, and nothing but zeros before them. -/
def chunksAt (low : Nat) (part : Bytes) : Medium :=
  .ofMemory ⟨List.replicate low 0 ++ part⟩

theorem chunksAt_serves (low : Nat) (part : Bytes) :
    ReadableStore.Serves (chunksAt low part) (List.replicate low 0 ++ part) :=
  Medium.serves fun _ member => absurd member List.not_mem_nil

theorem chunksAt_holds (low : Nat) (part : Bytes) :
    ReadableStore.Holds (chunksAt low part) low part := by
  have serves := chunksAt_serves low part
  rw [← List.append_nil (_ ++ part)] at serves
  exact serves.holds_middle List.length_replicate

/-- An archive in a medium that has the chunks from the start of a range on and nothing else. -/
def bare (placement : Placement) (start : Nat) (part : Bytes) : Archive Medium :=
  ⟨chunksAt (placement.base + chunkLength * chunkIndex start) part, placement, .zero⟩

section

variable {placement : Placement} {start stop : Nat} (part : Bytes)
  (valid : placement.validate = .ok ()) (ordered : start < stop)
  (inside : stop ≤ placement.logicalSize)

include valid ordered inside

/-- A reader of the range of such an archive comes to an end, and each of its reads comes back. -/
theorem bare_reader {reader : RangeReader Medium}
    (opened : (bare placement start part).reader start stop = .ok (.ok reader)) :
    ∃ bytes progress, progress ≠ .unfinished ∧ Source.DrainsTo reader bytes progress ∧
      ∀ rooms, ∃ replies last, Source.readEach reader rooms = .ok (replies, last) := by
  have serves : ReadableStore.Serves (bare placement start part).store _ := chunksAt_serves _ part
  obtain ⟨_, created, yields⟩ := reader_yields valid serves (Nat.le_of_lt ordered) inside
  cases created.symm.trans opened
  obtain ⟨_, opening, bounds⟩ := reader_returns (bare placement start part) start stop valid
  cases opening.symm.trans opened
  refine ⟨_, _, ?_, yields.drainsTo, fun rooms => ?_⟩
  · generalize Option.map DecodeError.toFinal _ = failure
    cases failure with
    | none => exact Source.Progress.noConfusion
    | some error => exact Source.Progress.noConfusion
  · obtain ⟨⟨replies, last⟩, run, _⟩ :=
      (RangeReader.answers TotalStore.responds).readEach (bounds _ rfl) rooms
    exact ⟨replies, last, run⟩

theorem bare_readRange {κ : Type} [TotalSink κ] (sink : κ) :
    ∃ reply after last,
      (bare placement start part).readRange sink start stop = .ok (reply, after, last) := by
  obtain ⟨⟨reply, after, last⟩, run, _⟩ : ((bare placement start part).copyRange sink start
    stop).Returns _ := copyRange_returns (bare placement start part) sink valid inside
  rw [← readRange_eq_copyRange (bare placement start part) (Nat.le_of_lt ordered) inside] at run
  exact ⟨reply, after, last, run⟩

end

section

variable {archive : Archive σ} {placement : Placement} {start stop : Nat} {part : Bytes}
  (placed : archive.placement = placement) (valid : placement.validate = .ok ())
  (ordered : start < stop) (inside : stop ≤ placement.logicalSize)
  (covers : archive.Covers start stop part)

include placed valid ordered inside covers

theorem Covers.alikeWithin :
    ReadableStore.AlikeWithin
      (fun (store : σ) (store' : Medium) =>
        ReadableStore.Holds store (placement.base + chunkLength * chunkIndex start) part ∧
        ReadableStore.Holds store' (placement.base + chunkLength * chunkIndex start) part)
      (placement.base + chunkLength * chunkIndex start)
      (placement.base + coverEnd stop placement.logicalSize) := by
  subst placed
  have fits := Placement.validate_eq_ok_iff.mp valid
  have from_start := chunkStart_le_coverEnd ordered inside
  have to_end := coverEnd_le stop archive.placement.logicalSize
  have length : part.length = coverEnd stop archive.placement.logicalSize - _ := covers.length
  have whole : archive.placement.base + coverEnd stop archive.placement.logicalSize =
      archive.placement.base + chunkLength * chunkIndex start + part.length := by omega
  rw [whole]
  exact ReadableStore.Holds.alikeWithin (by omega)

/-- A reader of a range is a twin of the one of a medium with the chunks of the range alone. -/
theorem Covers.reader :
    ∃ (Twin : RangeReader σ → RangeReader Medium → Prop) (reader : RangeReader σ)
      (reader' : RangeReader Medium), Source.Twins Twin ∧ Twin reader reader' ∧
        archive.reader start stop = .ok (.ok reader) ∧
        (bare placement start part).reader start stop = .ok (.ok reader') := by
  have alike := covers.alikeWithin placed valid ordered inside
  subst placed
  exact reader_alike archive.scratch .zero valid ordered inside
    ⟨covers.holds, chunksAt_holds _ part⟩ alike

/-- A copy of a range goes as from a medium with the chunks of the range alone. -/
theorem Covers.readRange {κ : Type} [Sink κ] (sink : κ) :
    Alike (SameReply fun _ (first : Archive σ × κ) (second : Archive Medium × κ) =>
        first.2 = second.2)
      (archive.readRange sink start stop)
      ((bare placement start part).readRange sink start stop) := by
  have alike := covers.alikeWithin placed valid ordered inside
  subst placed
  exact readRange_alike archive.scratch .zero valid ordered inside
    ⟨covers.holds, chunksAt_holds _ part⟩ alike sink

end

/-- What becomes of a range depends on nothing but the chunks that hold some of it. If these are the
same in two archives with the same placement, readers of the range drain to the same bytes and the same
end, and give the same replies to each row of reads; and copies of the range come to the same reply and
leave the same sink, whatever the sink does. -/
theorem range_of_chunks (archive : Archive σ) (archive' : Archive τ) (start stop : Nat) (part : Bytes)
    (placed : archive'.placement = archive.placement) (valid : archive.placement.validate = .ok ())
    (ordered : start < stop) (inside : stop ≤ archive.logicalSize)
    (covers : archive.Covers start stop part) (covers' : archive'.Covers start stop part) :
    ∃ reader reader', archive.reader start stop = .ok (.ok reader) ∧
      archive'.reader start stop = .ok (.ok reader') ∧
      (∃ bytes progress, progress ≠ .unfinished ∧ Source.DrainsTo reader bytes progress ∧
        Source.DrainsTo reader' bytes progress) ∧
      (∀ rooms, ∃ replies last last', Source.readEach reader rooms = .ok (replies, last) ∧
        Source.readEach reader' rooms = .ok (replies, last')) ∧
      ∀ (κ : Type) [TotalSink κ] (sink : κ), ∃ reply after after' last,
        archive.readRange sink start stop = .ok (reply, after, last) ∧
        archive'.readRange sink start stop = .ok (reply, after', last) := by
  -- Both are compared with the archive that has these chunks only, of which more is known.
  obtain ⟨_, reader, plain, twins, twin, opened, plain_opened⟩ :=
    covers.reader rfl valid ordered inside
  obtain ⟨_, reader', _, twins', twin', opened', again⟩ :=
    covers'.reader placed valid ordered inside
  obtain rfl := Except.ok.inj (Except.ok.inj (again.symm.trans plain_opened))
  obtain ⟨bytes, progress, finished, drains, answers⟩ :=
    bare_reader part valid ordered inside plain_opened
  refine ⟨reader, reader', opened, opened', ⟨bytes, progress, finished, twins.drainsTo twin drains,
    twins'.drainsTo twin' drains⟩, fun rooms => ?_, fun κ _ sink => ?_⟩
  · obtain ⟨replies, last, run⟩ := answers rooms
    obtain ⟨⟨_, next⟩, reads, rfl, _⟩ := (twins.readEach twin rooms).of_ok run
    obtain ⟨⟨_, next'⟩, reads', rfl, _⟩ := (twins'.readEach twin' rooms).of_ok run
    exact ⟨_, next, next', reads, reads'⟩
  · obtain ⟨reply, after, last, run⟩ := bare_readRange part valid ordered inside sink
    obtain ⟨⟨_, next, _⟩, copied, rfl, rfl⟩ :=
      (covers.readRange rfl valid ordered inside sink).of_ok run
    obtain ⟨⟨_, next', _⟩, copied', rfl, rfl⟩ :=
      (covers'.readRange placed valid ordered inside sink).of_ok run
    exact ⟨_, next, next', _, copied, copied'⟩

/-- The last byte of two chunks, of which only the second is the same in two media: they differ in the
first chunk, before the stream, behind it and in how they are read. -/
theorem second_chunk_decides :
    let part := Frame.ofPayload [5, 6]
    let archive : Archive Medium := ⟨⟨⟨9 :: List.replicate 65536 0 ++ part ++ []⟩, true, [.limit 1],
      [], []⟩, ⟨1, 65534⟩, .zero⟩
    let archive' : Archive Medium := ⟨⟨⟨7 :: List.replicate 65536 1 ++ part ++ [8]⟩, true,
      [.fail (.bare .interrupted)], [], []⟩, ⟨1, 65534⟩, .zero⟩
    ∃ reader reader', archive.reader 65533 65534 = .ok (.ok reader) ∧
      archive'.reader 65533 65534 = .ok (.ok reader') ∧
      (∃ bytes progress, Source.DrainsTo reader bytes progress ∧
        Source.DrainsTo reader' bytes progress) ∧
      ∃ reply after after' last,
        archive.readRange (Outlet.fresh [.limit 0] []) 65533 65534 = .ok (reply, after, last) ∧
        archive'.readRange (Outlet.fresh [.limit 0] []) 65533 65534 = .ok (reply, after', last) := by
  intro part archive archive'
  have serves : ReadableStore.Serves archive.store (9 :: List.replicate 65536 0 ++ part ++ []) :=
    Medium.serves (by decide)
  have serves' : ReadableStore.Serves archive'.store (7 :: List.replicate 65536 1 ++ part ++ [8]) :=
    Medium.serves (by decide)
  have length : part.length = coverEnd 65534 65534 - chunkLength * chunkIndex 65533 := by
    rw [Frame.length_ofPayload]
    decide
  have place : 65537 = 1 + chunkLength * chunkIndex 65533 := by decide
  have covers : archive.Covers 65533 65534 part := by
    refine ⟨length, serves.holds_middle ?_⟩
    rw [List.length_cons, List.length_replicate]
    exact place
  have covers' : archive'.Covers 65533 65534 part := by
    refine ⟨length, serves'.holds_middle ?_⟩
    rw [List.length_cons, List.length_replicate]
    exact place
  have placed : archive'.placement = archive.placement := Eq.refl (⟨1, 65534⟩ : Placement)
  obtain ⟨reader, reader', opened, opened', ⟨bytes, progress, _, drains, drains'⟩, _, copies⟩ :=
    range_of_chunks archive archive' 65533 65534 part placed
      (Placement.validate_eq_ok_iff.mpr (by decide)) (by decide) (by decide) covers covers'
  exact ⟨reader, reader', opened, opened', ⟨bytes, progress, drains, drains'⟩,
    copies Outlet (Outlet.fresh [.limit 0] [])⟩

end Archive

end SealedStream
