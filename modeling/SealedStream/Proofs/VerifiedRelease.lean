import SealedStream.Proofs.Loops
import SealedStream.Proofs.Returning
import SealedStream.Proofs.SizedDecoding

/-!
# A decoder hands out verified bytes only

Whatever its source gives and however it fails, a decoder of known size takes frames from the front
of what the source gives, one behind the other, and hands out payloads of frames that it has read as
a whole and found good. `Released` says so of one state, with the account of the declared size that
goes with it: what was handed out, what waits and what remains are the size together. A fetch keeps
it (`Released.fetch`), so does a read with any buffer (`Released.read`), and so every row of reads
does (`SizedDecoder.releases_verified`).
-/
namespace SealedStream

open Layout

/-- All the bytes that replies to reads bring; an error brings none. -/
def Source.delivered (replies : List (Except IoError Bytes)) : Bytes :=
  replies.flatMap fun reply => reply.toOption.getD []

@[simp] theorem Source.delivered_cons (reply : Except IoError Bytes)
    (replies : List (Except IoError Bytes)) :
    delivered (reply :: replies) = reply.toOption.getD [] ++ delivered replies :=
  List.flatMap_cons

namespace SizedDecoder

variable {ρ : Type} [TracedSource ρ]

/-- A decoder of `size` bytes that has taken these frames from a source that had given `before`, and
has handed out these bytes. A frame that was read but is not good is none of them; `failed` is what
was taken for it. -/
structure Released (before : Bytes) (size : Nat) (frames : List Bytes) (failed delivered : Bytes)
    (decoder : SizedDecoder ρ) : Prop where
  given : TracedSource.given decoder.source = before ++ (frames.flatten ++ failed)
  verified : ∀ frame ∈ frames, ∃ sum, Frame.verify frame = .ok sum
  full : ∀ frame ∈ frames.dropLast, frame.length = chunkLength
  bytes : delivered ++ decoder.pending = (frames.flatMap Frame.payload).take size
  account : delivered.length + decoder.pending.length + decoder.remaining = size
  /-- While bytes remain, the last frame is a full one, too. -/
  unfinished : decoder.remaining ≠ 0 → ∀ frame ∈ frames, frame.length = chunkLength
  healthy : decoder.sticky = none → failed = []
  stopped : decoder.sticky ≠ none → decoder.pending = [] ∧ decoder.remaining ≠ 0

namespace Released

variable {before failed delivered : Bytes} {size : Nat} {frames : List Bytes}
  {decoder : SizedDecoder ρ}

theorem start (source : ρ) (size : Nat) (scratch : Scratch) :
    Released (TracedSource.given source) size [] [] [] (create source size scratch) where
  given := (List.append_nil _).symm
  verified _ absent := nomatch absent
  full _ absent := nomatch absent
  bytes := List.take_nil.symm
  account := by simp [create]
  unfinished _ _ absent := nomatch absent
  healthy _ := rfl
  stopped failure := absurd rfl failure

/-- Handing out moves bytes from those that wait to those that were delivered. -/
theorem hand (released : Released before size frames failed delivered decoder) (room : Nat) :
    Released before size frames failed (delivered ++ (decoder.hand room).1)
      (decoder.hand room).2 where
  given := released.given
  verified := released.verified
  full := released.full
  bytes := by
    rw [SizedDecoder.hand, List.append_assoc, List.take_append_drop]
    exact released.bytes
  account := by
    have account := released.account
    simp only [SizedDecoder.hand, List.length_append, List.length_take, List.length_drop]
    omega
  unfinished := released.unfinished
  healthy := released.healthy
  stopped failure := by
    obtain ⟨none, some⟩ := released.stopped failure
    exact ⟨by simp [SizedDecoder.hand, none], some⟩

/-- What a fetch takes from the source is no good, and then the decoder has ended. -/
theorem fail (released : Released before size frames [] delivered decoder)
    (idle : decoder.pending = []) (wanting : decoder.remaining ≠ 0) {source : ρ} {part : Bytes}
    (grown : TracedSource.given source = TracedSource.given decoder.source ++ part)
    (scratch : Scratch) (failure : Sticky) :
    Released before size frames part delivered
      { decoder with source, scratch, sticky := some failure } where
  given := by
    rw [grown, released.given, List.append_nil, List.append_assoc]
  verified := released.verified
  full := released.full
  bytes := released.bytes
  account := released.account
  unfinished := released.unfinished
  healthy absent := nomatch absent
  stopped _ := ⟨idle, wanting⟩

/-- What a fetch takes from the source is the frame of a payload, which then waits. -/
theorem advance (released : Released before size frames [] delivered decoder)
    (idle : decoder.pending = []) (wanting : decoder.remaining ≠ 0)
    (well : decoder.sticky = none) {source : ρ} {payload : Bytes}
    (grown : TracedSource.given source =
      TracedSource.given decoder.source ++ Frame.ofPayload payload)
    (some : payload ≠ []) (enough : min (decoder.remaining + headerLength) chunkLength ≤
      (Frame.ofPayload payload).length)
    (fits : (Frame.ofPayload payload).length ≤ chunkLength) (scratch : Scratch) :
    Released before size (frames ++ [Frame.ofPayload payload]) [] delivered
      { decoder with
        source
        scratch
        pending := payload.take decoder.remaining
        remaining := decoder.remaining - payload.length } := by
  have whole := released.unfinished wanting
  have account := released.account
  have bytes := released.bytes
  rw [idle, List.length_nil, Nat.add_zero] at account
  rw [idle, List.append_nil] at bytes
  -- All of the payloads so far were handed out, as bytes remain.
  have total : (frames.flatMap Frame.payload).length = delivered.length := by
    have length := congrArg List.length bytes
    rw [List.length_take] at length
    omega
  rw [Frame.length_ofPayload] at enough fits
  refine
    { given := ?_, verified := ?_, full := ?_, bytes := ?_, account := ?_, unfinished := ?_,
      healthy := fun _ => rfl, stopped := fun failure => absurd well failure }
  · rw [grown, released.given]
    simp
  · intro frame member
    rcases List.mem_append.mp member with old | new
    · exact released.verified frame old
    · obtain rfl := List.mem_singleton.mp new
      exact ⟨_, Frame.verify_eq_ok_iff.mpr ⟨payload, some, rfl, rfl⟩⟩
  · -- The frames before the new one were all full, as bytes remained.
    rwa [List.dropLast_concat]
  · have all : frames.flatMap Frame.payload = delivered := by
      rw [bytes, List.take_of_length_le (by omega)]
    rw [List.flatMap_append, List.flatMap_singleton, Frame.payload_ofPayload, all, ← account,
      List.take_length_add_append]
  · simp only [List.length_take]
    omega
  · intro more frame member
    rcases List.mem_append.mp member with old | new
    · exact whole frame old
    · -- A frame that is not full brings all that remains, so nothing would be left.
      obtain rfl := List.mem_singleton.mp new
      dsimp only at more
      rw [Frame.length_ofPayload]
      simp only [headerLength, chunkLength] at *
      omega

/-- A fetch comes back. It takes one more good frame, whose payload then waits, or it fails. -/
theorem fetch (released : Released before size frames [] delivered decoder)
    (idle : decoder.pending = []) (wanting : decoder.remaining ≠ 0)
    (well : decoder.sticky = none) :
    (∃ count next frame, decoder.fetch = .ok (.ok count, next) ∧ next.pending ≠ [] ∧
      Released before size (frames ++ [frame]) [] delivered next) ∨
    ∃ error next failed, decoder.fetch = .ok (.error error, next) ∧
      Released before size frames failed delivered next ∧ next.remaining ≠ 0 := by
  obtain ⟨gathered, source, gathering, grown⟩ := TracedSource.gather_answers decoder.source
    (min (decoder.remaining + headerLength) chunkLength) chunkLength
  obtain ⟨scratch, _, _, loading⟩ := decoder.load_of_gather rfl gathering
  cases opened : gathered.opened (min (decoder.remaining + headerLength) chunkLength) with
  | error error =>
    rw [opened] at loading
    exact .inr ⟨error, _, gathered.bytes, fetch_of_error loading,
      released.fail idle wanting grown scratch (.ofError error), wanting⟩
  | ok payload =>
    rw [opened] at loading
    obtain ⟨enough, some, frame⟩ := Gathered.of_opened opened
    have fits := Source.length_gather_le gathering
    rw [frame] at grown enough fits
    refine .inl ⟨_, _, _, fetch_of_ok loading, ?_,
      released.advance idle wanting well grown some enough fits scratch⟩
    simp [some, wanting]

end Released

/-- What a read with that much room brings, and what it leaves behind. With room in its buffer, it
brings the end exactly if all of the declared size was delivered before. -/
structure Answer (before : Bytes) (size : Nat) (delivered : Bytes) (room : Nat)
    (reply : Except IoError Bytes) (next : SizedDecoder ρ) : Prop where
  released : ∃ frames failed,
    Released before size frames failed (delivered ++ reply.toOption.getD []) next
  ends : 0 < room → (reply = .ok [] ↔ delivered.length = size)

namespace Released

variable {before failed delivered : Bytes} {size : Nat} {frames : List Bytes}
  {decoder : SizedDecoder ρ}

/-- Bytes that wait were not delivered, so handing out some of them is not the end. -/
theorem answer_waiting (released : Released before size frames failed delivered decoder)
    (some : decoder.pending ≠ []) (room : Nat) :
    Answer before size delivered room (.ok (decoder.hand room).1) (decoder.hand room).2 where
  released := ⟨frames, failed, released.hand room⟩
  ends positive := by
    have account := released.account
    have waiting := List.length_pos_iff.mpr some
    have brings : (decoder.hand room).1 ≠ [] := by
      simpa [SizedDecoder.hand, some] using Nat.ne_of_gt positive
    simp only [Except.ok.injEq, brings, false_iff]
    omega

/-- An error brings no bytes, and comes only while some are wanting. -/
theorem answer_error (released : Released before size frames failed delivered decoder)
    (wanting : decoder.remaining ≠ 0) (room : Nat) (error : IoError) :
    Answer before size delivered room (.error error) decoder where
  released := ⟨frames, failed, by simpa [Except.toOption] using released⟩
  ends _ := by
    have account := released.account
    simp only [reduceCtorEq, false_iff]
    omega

theorem answer_end (released : Released before size frames failed delivered decoder)
    (idle : decoder.pending = []) (done : decoder.remaining = 0) (room : Nat) :
    Answer before size delivered room (.ok []) decoder where
  released := ⟨frames, failed, by simpa [Except.toOption] using released⟩
  ends _ := by
    have account := released.account
    rw [idle, done] at account
    simpa using account

/-- A read comes back, whatever its buffer, and what it brings comes from good frames. -/
theorem read (released : Released before size frames failed delivered decoder) (room : Nat) :
    ∃ reply next, decoder.read room = .ok (reply, next) ∧
      Answer before size delivered room reply next := by
  by_cases idle : decoder.pending = []
  · -- Nothing waits, so the read repeats a failure, brings the end, or fetches a frame.
    cases ended : decoder.sticky with
    | some sticky =>
      have wanting := (released.stopped (by simp [ended])).2
      exact ⟨_, _, read_of_sticky idle ended room, released.answer_error wanting room sticky.toIo⟩
    | none =>
      by_cases done : decoder.remaining = 0
      · exact ⟨_, _, read_of_done idle ended done room, released.answer_end idle done room⟩
      · obtain rfl := released.healthy ended
        rcases released.fetch idle done ended with
          ⟨count, next, frame, fetching, some, after⟩ |
          ⟨error, next, failed, fetching, after, still⟩
        · exact ⟨_, _, read_of_fetched idle ended done fetching room,
            after.answer_waiting some room⟩
        · exact ⟨_, _, read_of_failed idle ended done fetching room,
            after.answer_error still room error.toIo⟩
  · exact ⟨_, _, read_of_waiting idle room, released.answer_waiting idle room⟩

/-- Every row of reads comes back, and leaves such a state. -/
theorem readEach (released : Released before size frames failed delivered decoder)
    (rooms : List Nat) :
    ∃ replies last frames failed, Source.readEach decoder rooms = .ok (replies, last) ∧
      Released before size frames failed (delivered ++ Source.delivered replies) last := by
  -- The induction is on the reads; what was delivered grows by what the first one brings.
  induction rooms generalizing decoder frames failed delivered with
  | nil => exact ⟨[], decoder, frames, failed, rfl, by simpa [Source.delivered] using released⟩
  | cons room rooms ih =>
    obtain ⟨reply, next, call, ⟨middle, wasted, after⟩, _⟩ := released.read room
    obtain ⟨replies, last, taken, rest, run, ends⟩ := ih after
    refine ⟨reply :: replies, last, taken, rest, ?_, ?_⟩
    · have first : Source.read decoder room = .ok (reply, next) := call
      rw [Source.readEach, first, Checked.ok_bind]
      dsimp only
      rw [run]
      rfl
    · rwa [Source.delivered_cons, ← List.append_assoc]

end Released

/-- After any reads with any buffers, a decoder has handed out bytes of good frames only, and the
next read comes back: it brings the end exactly if the declared size was delivered. -/
theorem releases_verified (source : ρ) (size : Nat) (scratch : Scratch) (rooms : List Nat) :
    ∃ replies last frames failed,
      Source.readEach (create source size scratch) rooms = .ok (replies, last) ∧
      Released (TracedSource.given source) size frames failed (Source.delivered replies) last ∧
      ∀ room, 0 < room → ∃ reply next, Source.read last room = .ok (reply, next) ∧
        (reply = .ok [] ↔ (Source.delivered replies).length = size) := by
  obtain ⟨replies, last, frames, failed, run, released⟩ :=
    (Released.start source size scratch).readEach rooms
  refine ⟨replies, last, frames, failed, run, released, ?_⟩
  intro room positive
  obtain ⟨reply, next, call, _, ends⟩ := released.read room
  exact ⟨reply, next, call, ends positive⟩

end SizedDecoder

end SealedStream
