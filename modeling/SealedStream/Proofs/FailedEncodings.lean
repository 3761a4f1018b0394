import SealedStream.Proofs.Canonicity
import SealedStream.Proofs.SizedDecoding
import SealedStream.Proofs.StoppedDevices

/-!
# Encodings that fail

An encoding goes from a source that may come short or fail at any read to a sink that may take any
part of an offer or fail at any write. It ends in one of three ways (`Sealing.Stops`): with the image
of as many bytes as it was to encode, at a fault of the source, when the sink has exactly the chunks
that were read whole, or at a fault of the sink, inside the frame of the chunk that was read last.
`Sealing.ByChunks` says what this means for the data that the source gives before a fault, and
`Sealing.stops_at_chunks` that every run ends so. It also looks at a run at any time in between, as
`Stopped` devices show it.
-/
namespace SealedStream

open Layout TracedSource TracedSink

/-! ### Faults of devices -/

/-- What was gathered behind some bytes decides whether there is enough. -/
theorem Gathered.outcome_behind (front : Bytes) (gathered : Gathered) (need : Nat)
    (shortage : FinalError) :
    outcome ⟨front ++ gathered.bytes, gathered.failure⟩ need shortage =
      gathered.outcome (need - front.length) shortage := by
  unfold outcome
  dsimp only
  split
  next => rfl
  next =>
    have same : (front ++ gathered.bytes).length < need ↔
        gathered.bytes.length < need - front.length := by
      rw [List.length_append]
      omega
    simp only [same]

namespace Source

variable {ρ : Type} [Source ρ]

/-- Reads that bring something, or are interrupted, lead from one state of a source to another. The
bytes are all that they bring. -/
inductive Gives : ρ → Bytes → ρ → Prop
  | still (source : ρ) : Gives source [] source
  | part {source middle last : ρ} {room : Nat} {bytes got : Bytes} (some : bytes ≠ [])
      (call : read source room = .ok (.ok bytes, middle)) (rest : Gives middle got last) :
      Gives source (bytes ++ got) last
  | interrupted {source middle last : ρ} {room : Nat} {error : IoError} {got : Bytes}
      (kind : error.kind = .interrupted) (call : read source room = .ok (.error error, middle))
      (rest : Gives middle got last) : Gives source got last

theorem Gives.trans {source middle last : ρ} {front back : Bytes} (first : Gives source front middle)
    (second : Gives middle back last) : Gives source (front ++ back) last := by
  induction first with
  | still => exact second
  | part some call _ ih =>
    rw [List.append_assoc]
    exact .part some call (ih second)
  | interrupted kind call _ ih => exact .interrupted kind call (ih second)

/-- A fault of a source that has given some bytes: it ends where more is needed, which is a shortage,
or a read fails for good. -/
inductive Faults (source : ρ) (got : Bytes) (shortage : FinalError) : FinalError → Prop
  | ended {state next : ρ} {room : Nat} (gives : Gives source got state) (positive : 0 < room)
      (call : read state room = .ok (.ok [], next)) : Faults source got shortage shortage
  | failed {state next : ρ} {room : Nat} {cause : FinalError} (gives : Gives source got state)
      (call : read state room = .ok (.error cause.toIo, next)) : Faults source got shortage cause

theorem Faults.behind {source middle : ρ} {front got : Bytes} {shortage cause : FinalError}
    (gives : Gives source front middle) (faults : Faults middle got shortage cause) :
    Faults source (front ++ got) shortage cause := by
  cases faults with
  | ended further positive call => exact .ended (gives.trans further) positive call
  | failed further call => exact .failed (gives.trans further) call

/-- A gathering succeeds on what the source gives, or comes short at a fault. -/
theorem gives_or_faults {source last : ρ} {need room : Nat} {gathered : Gathered}
    (fits : need ≤ room) (run : gather source need room = .ok (gathered, last))
    (shortage : FinalError) :
    (gathered.outcome need shortage = .ok () ∧ Gives source gathered.bytes last) ∨
      ∃ cause, gathered.outcome need shortage = .error cause ∧ gathered.bytes.length < need ∧
        Faults source gathered.bytes shortage cause := by
  -- What the rest of the loop comes to lies behind what this turn got.
  fun_induction gather source need room generalizing gathered last with
  | case1 source =>
    cases run
    exact .inl ⟨rfl, .still source⟩
  | case2 => cases run
  | case3 source need room wanting next call =>
    cases run
    have positive : 0 < need := Nat.pos_of_ne_zero wanting
    exact .inr ⟨shortage, if_pos positive, positive, .ended (.still source) (by omega) call⟩
  | case4 => cases run
  | case5 source need room _ bytes next call some rest last inner ih =>
    cases run
    rw [Gathered.outcome_behind, List.length_append]
    rcases ih (by omega) inner with ⟨done, gives⟩ | ⟨cause, failed, short, faults⟩
    · exact .inl ⟨done, .part some call gives⟩
    · have one : Gives source bytes next := List.append_nil bytes ▸ .part some call (.still next)
      exact .inr ⟨cause, failed, by omega, faults.behind one⟩
  | case6 source need room _ error next call kind ih =>
    have one : Gives source [] next := .interrupted kind call (.still next)
    rcases ih fits run with ⟨done, gives⟩ | ⟨cause, failed, short, faults⟩
    · exact .inl ⟨done, .interrupted kind call gives⟩
    · exact .inr ⟨cause, failed, short, faults.behind one⟩
  | case7 source need room wanting error next call final =>
    cases run
    exact .inr ⟨⟨error, final⟩, rfl, Nat.pos_of_ne_zero wanting, .failed (.still source) call⟩

/-- The source gives these bytes and then comes to a fault, however they are read. -/
structure DryAfter (source : ρ) (data : Bytes) : Prop where
  front {got : Bytes} {state : ρ} : Gives source got state → got <+: data
  fault {got : Bytes} {shortage cause : FinalError} : Faults source got shortage cause → got = data

/-- Behind what a source of given bytes has given, it has the others. -/
theorem Gives.of_supplies {source last : ρ} {got data : Bytes} (gives : Gives source got last)
    (supplies : Supplies source data) : ∃ rest, data = got ++ rest ∧ Supplies last rest := by
  induction gives generalizing data with
  | still => exact ⟨data, rfl, supplies⟩
  | part some call _ ih =>
    obtain ⟨_, rfl, _, after⟩ := SuppliesAmid.of_read supplies call
    obtain ⟨rest, rfl, further⟩ := ih after
    exact ⟨rest, (List.append_assoc _ _ _).symm, further⟩
  | interrupted kind call _ ih => exact ih (SuppliesAmid.of_read_error supplies call).2

/-- A source that has some bytes to give and then ends comes to a fault behind them only. -/
theorem Supplies.dryAfter {source : ρ} {data : Bytes} (supplies : Supplies source data) :
    DryAfter source data where
  front gives := by
    obtain ⟨rest, rfl, _⟩ := gives.of_supplies supplies
    exact List.prefix_append _ rest
  fault faults := by
    cases faults with
    | ended gives positive call =>
      obtain ⟨rest, rfl, after⟩ := gives.of_supplies supplies
      obtain ⟨_, _, progress, _⟩ := SuppliesAmid.of_read after call
      rcases progress rfl with none | rfl
      · omega
      · rw [List.append_nil]
    | failed gives call =>
      obtain ⟨rest, _, after⟩ := gives.of_supplies supplies
      exact absurd (SuppliesAmid.of_read_error after call).1 (FinalError.kind_ne _)

end Source

theorem Tap.supplies {ρ : Type} [Source ρ] {source : ρ} {given data : Bytes}
    (supplies : Source.Supplies source data) : Source.Supplies (⟨source, given⟩ : Tap ρ) data := by
  refine ⟨fun tap bytes => Source.Supplies tap.source bytes, supplies, ?_⟩
  intro tap bytes supplies room
  rcases Source.SuppliesAmid.read supplies room with
    ⟨part, rest, next, call, split, progress, after⟩ | ⟨error, next, call, kind, after⟩
  · refine .inl ⟨part, rest, _, Checked.bind_eq_ok_iff.mpr ⟨_, call, rfl⟩, split, progress, after⟩
  · exact .inr ⟨error, _, Checked.bind_eq_ok_iff.mpr ⟨_, call, rfl⟩, kind, after⟩

namespace Sink

variable {κ : Type} [Sink κ]

/-- Writes that take something, or are interrupted, lead from one state of a sink to another. The
bytes are all that they take. -/
inductive Takes : κ → Bytes → κ → Prop
  | still (sink : κ) : Takes sink [] sink
  | part {sink middle last : κ} {bytes sent : Bytes} {count : Nat} (some : count ≠ 0)
      (call : write sink bytes = .ok (.ok count, middle)) (rest : Takes middle sent last) :
      Takes sink (bytes.take count ++ sent) last
  | interrupted {sink middle last : κ} {bytes sent : Bytes} {error : IoError}
      (kind : error.kind = .interrupted) (call : write sink bytes = .ok (.error error, middle))
      (rest : Takes middle sent last) : Takes sink sent last

theorem Takes.trans {sink middle last : κ} {front back : Bytes} (first : Takes sink front middle)
    (second : Takes middle back last) : Takes sink (front ++ back) last := by
  induction first with
  | still => exact second
  | part some call _ ih =>
    rw [List.append_assoc]
    exact .part some call (ih second)
  | interrupted kind call _ ih => exact .interrupted kind call (ih second)

/-- A fault of a sink that has taken some bytes: it takes nothing of an offer, which is a refusal, or
a write fails for good. -/
inductive Faults (sink : κ) (sent : Bytes) (refusal : FinalError) : FinalError → Prop
  | refused {state next : κ} {bytes : Bytes} (takes : Takes sink sent state) (some : bytes ≠ [])
      (call : write state bytes = .ok (.ok 0, next)) : Faults sink sent refusal refusal
  | failed {state next : κ} {bytes : Bytes} {cause : FinalError} (takes : Takes sink sent state)
      (call : write state bytes = .ok (.error cause.toIo, next)) : Faults sink sent refusal cause

theorem Faults.behind {sink middle : κ} {front sent : Bytes} {refusal cause : FinalError}
    (takes : Takes sink front middle) (faults : Faults middle sent refusal cause) :
    Faults sink (front ++ sent) refusal cause := by
  cases faults with
  | refused further some call => exact .refused (takes.trans further) some call
  | failed further call => exact .failed (takes.trans further) call

/-- A loop of writes succeeds when the sink takes everything, or comes short at a fault. -/
theorem takes_or_faults {sink last : κ} {bytes : Bytes} {pushed : Pushed}
    (run : push sink bytes = .ok (pushed, last)) (refusal : FinalError) :
    (pushed.outcome refusal = .ok () ∧ pushed.taken = bytes.length ∧ Takes sink bytes last) ∨
      ∃ cause, pushed.outcome refusal = .error cause ∧ pushed.taken < bytes.length ∧
        Faults sink (bytes.take pushed.taken) refusal cause := by
  fun_induction push sink bytes generalizing pushed last with
  | case1 sink =>
    cases run
    exact .inl ⟨rfl, rfl, .still sink⟩
  | case2 => cases run
  | case3 sink bytes some next call =>
    cases run
    exact .inr ⟨refusal, rfl, List.length_pos_iff.mpr some, .refused (.still sink) some call⟩
  | case4 => cases run
  | case5 sink bytes _ taken next call positive rest last inner ih =>
    cases run
    have bound := taken_le_length call
    have whole : bytes.take taken ++ bytes.drop taken = bytes := List.take_append_drop _ _
    rcases ih inner with ⟨done, all, takes⟩ | ⟨cause, failed, short, faults⟩
    · rw [List.length_drop] at all
      exact .inl ⟨done, by dsimp only; omega, whole ▸ .part positive call takes⟩
    · rw [List.length_drop] at short
      have one : Takes sink (bytes.take taken) next :=
        List.append_nil (bytes.take taken) ▸ .part positive call (.still next)
      refine .inr ⟨cause, failed, by dsimp only; omega, ?_⟩
      dsimp only
      rw [List.take_add]
      exact faults.behind one
  | case6 sink bytes _ error next call kind ih =>
    have one : Takes sink [] next := .interrupted kind call (.still next)
    rcases ih run with ⟨done, all, takes⟩ | ⟨cause, failed, short, faults⟩
    · exact .inl ⟨done, all, .interrupted kind call takes⟩
    · exact .inr ⟨cause, failed, short, faults.behind one⟩
  | case7 sink bytes some error next call final =>
    cases run
    exact .inr ⟨⟨error, final⟩, rfl, List.length_pos_iff.mpr some, .failed (.still sink) call⟩

end Sink

/-- Writing everything comes back, when the sink has taken all or has come to a fault. -/
theorem TracedSink.writeAll_answers {κ : Type} [TracedSink κ] (sink : κ) (bytes : Bytes) :
    (∃ last, Sink.writeAll sink bytes = .ok (.ok (), last) ∧ taken last = taken sink ++ bytes ∧
      Sink.Takes sink bytes last) ∨
    ∃ cause last count, Sink.writeAll sink bytes = .ok (.error cause, last) ∧
      count < bytes.length ∧ taken last = taken sink ++ bytes.take count ∧
      Sink.Faults sink (bytes.take count) .unwrittenBuffer cause := by
  obtain ⟨pushed, last, run, grown, _⟩ := push_answers sink bytes
  have reply : Sink.writeAll sink bytes = .ok (pushed.outcome .unwrittenBuffer, last) := by
    rw [Sink.writeAll, run]
    rfl
  rw [reply]
  rcases Sink.takes_or_faults run .unwrittenBuffer with
    ⟨done, all, takes⟩ | ⟨cause, failed, short, fault⟩
  · rw [all, List.take_length] at grown
    rw [done]
    exact .inl ⟨last, rfl, grown, takes⟩
  · rw [failed]
    exact .inr ⟨cause, last, pushed.taken, rfl, short, grown, fault⟩

/-! ### Payloads that are complete -/

namespace Layout

/-- How many of the payloads of `size` bytes are complete when `count` bytes have come. The last one
takes what remains. -/
def payloadsRead (size count : Nat) : Nat :=
  if size ≤ count then chunkCount size else chunkIndex count

/-- A payload is complete when all bytes up to its end have come. -/
theorem lt_payloadsRead_iff (index size count : Nat) :
    index < payloadsRead size count ↔
      payloadLength * index < size ∧ min size (payloadLength * (index + 1)) ≤ count := by
  unfold payloadsRead
  split
  next => simp only [chunkCount_eq_div, payloadLength]; omega
  next => simp only [chunkIndex, payloadLength]; omega

/-- The complete payloads hold everything, or whole chunks of it. -/
theorem min_payloadsRead (size count : Nat) :
    min size (payloadLength * payloadsRead size count) =
      if size ≤ count then size else payloadLength * chunkIndex count := by
  unfold payloadsRead
  split
  next => simp only [chunkCount_eq_div, payloadLength]; omega
  next => simp only [chunkIndex, payloadLength]; omega

theorem min_payloadsRead_le (size count : Nat) :
    min size (payloadLength * payloadsRead size count) ≤ count := by
  have split := offset_split count
  rw [min_payloadsRead]
  split <;> omega

end Layout

/-! ### How an encoding ends -/

namespace Sealing

variable {ρ κ : Type}

section

variable [Source ρ] [Sink κ] {before middle after : Sealing ρ κ} {size : Nat}
  {got sent front frames : Bytes} {reply : Except StreamError Unit}

/-- How an encoding of `size` bytes ends that has read `got` and written `sent`: with all of it; at a
fault of the source, with the image of the chunks that were read whole; or at a fault of the sink in
the frame of the chunk `index`, which is the last of which anything was read. -/
inductive Stops (before : Sealing ρ κ) (size : Nat) (got sent : Bytes) :
    Except StreamError Unit → Sealing ρ κ → Prop
  | done {after : Sealing ρ κ} (all : got.length = size) (whole : sent = Image.encode got)
      (gives : Source.Gives before.source got after.source)
      (takes : Sink.Takes before.sink sent after.sink) : Stops before size got sent (.ok ()) after
  | starved {after : Sealing ρ κ} {cause : FinalError} (short : got.length < size)
      (whole : sent = Image.encode (got.take (payloadLength * chunkIndex got.length)))
      (fault : Source.Faults before.source got .unfilledBuffer cause) :
      Stops before size got sent (.error (.source cause.toIo)) after
  | stuck {after : Sealing ρ κ} {cause : FinalError} (index : Nat)
      (begun : payloadLength * index < size)
      (read : got.length = min size (payloadLength * (index + 1)))
      (part : sent <+: Image.encode got)
      (behind : encodedLength (payloadLength * index) ≤ sent.length)
      (inside : sent.length < encodedLength got.length)
      (gives : Source.Gives before.source got after.source)
      (fault : Sink.Faults before.sink sent .unwrittenBuffer cause) :
      Stops before size got sent (.error (.sink cause.toIo)) after

/-- What ends the first chunk ends the encoding. -/
theorem Stops.first {error : StreamError}
    (stops : Stops before (min size payloadLength) got sent (.error error) after) :
    Stops before size got sent (.error error) after := by
  cases stops with
  | starved short whole fault => exact .starved (by omega) whole fault
  | stuck index begun read part behind inside gives fault =>
    have first : index = 0 := by
      simp only [payloadLength] at begun
      omega
    subst first
    refine .stuck 0 (by omega) ?_ part behind inside gives fault
    rw [read]
    omega

/-- What ends the encoding behind a chunk that was read and written whole ends it as a whole. -/
theorem Stops.behind (some : size ≠ 0)
    (first : Stops before (min size payloadLength) front frames (.ok ()) middle)
    (stops : Stops middle (size - min size payloadLength) got sent reply after) :
    Stops before size (front ++ got) (frames ++ sent) reply after := by
  obtain ⟨length, frame, gives, takes⟩ := first
  have positive : 0 < min size payloadLength := Nat.lt_min.mpr ⟨Nat.pos_of_ne_zero some, by decide⟩
  have nonempty : front ≠ [] := List.length_pos_iff.mp (by omega)
  have small : front.length ≤ payloadLength := by omega
  have image : ∀ rest, front.length = payloadLength ∨ rest = [] →
      Image.encode (front ++ rest) = frames ++ Image.encode rest := by
    intro rest full
    rw [Image.encode_append_block nonempty small full, frame, Image.encode_block nonempty small]
  cases stops with
  | done all whole further_gives further_takes =>
    -- Only behind a full payload is anything left to do.
    have full : front.length = payloadLength ∨ got = [] := by
      rcases Nat.le_total payloadLength size with long | short
      · exact .inl (by omega)
      · exact .inr (List.length_eq_zero_iff.mp (by omega))
    refine .done ?_ ?_ (gives.trans further_gives) (takes.trans further_takes)
    · rw [List.length_append]
      omega
    · rw [image got full, whole]
  | starved short whole fault =>
    have exact : front.length = payloadLength := by omega
    have index : chunkIndex (front ++ got).length = chunkIndex got.length + 1 := by
      rw [List.length_append, exact]
      exact Nat.add_div_left _ (by decide)
    refine .starved ?_ ?_ (fault.behind gives)
    · rw [List.length_append]
      omega
    · have reach : payloadLength * (chunkIndex got.length + 1) =
          front.length + payloadLength * chunkIndex got.length := by
        rw [Nat.mul_succ, exact, Nat.add_comm]
      rw [index, reach, List.take_length_add_append, image _ (.inl exact), whole]
  | stuck index begun read part behind inside further fault =>
    have exact : front.length = payloadLength := by omega
    have chunk : frames.length = chunkLength := by
      rw [frame, Image.length_encode, exact]
      rfl
    have longer := encodedLength_add 1 got.length
    rw [Nat.mul_one, Nat.mul_one] at longer
    rw [encodedLength_full] at behind
    refine .stuck (index + 1) ?_ ?_ ?_ ?_ ?_ (gives.trans further) (fault.behind takes)
    · rw [Nat.mul_succ]
      omega
    · rw [List.length_append, read, exact, Nat.mul_succ _ (index + 1)]
      omega
    · rw [image got (.inl exact)]
      exact (List.prefix_append_right_inj _).mpr part
    · rw [encodedLength_full, List.length_append, chunk, Nat.mul_succ]
      omega
    · rw [List.length_append, List.length_append, chunk, exact, longer]
      omega

/-- The sink has no more than the chunks whose payloads were read completely. -/
theorem Stops.sent_prefix (stops : Stops before size got sent reply after) :
    sent <+: Image.encode (got.take (min size (payloadLength * payloadsRead size got.length))) := by
  cases stops with
  | done all whole =>
    rw [min_payloadsRead, if_pos (by omega), List.take_of_length_le (by omega)]
    exact ⟨[], by rw [List.append_nil, whole]⟩
  | starved short whole =>
    rw [min_payloadsRead, if_neg (by omega)]
    exact ⟨[], by rw [List.append_nil, whole]⟩
  | stuck index begun read part =>
    -- The payload in whose frame the sink failed was complete, and nothing behind it was read.
    have complete := (lt_payloadsRead_iff index _ _).mpr ⟨begun, Nat.le_of_eq read.symm⟩
    have reach : payloadLength * (index + 1) ≤ payloadLength * payloadsRead size got.length :=
      Nat.mul_le_mul_left _ complete
    rw [List.take_of_length_le (by omega)]
    exact part

end

section

variable [Source ρ] [Sink κ] {before after : Sealing ρ κ} {size : Nat} {got sent data : Bytes}
  {reply : Except StreamError Unit}

/-- Of more data the complete payloads are the same. -/
theorem Stops.sent_prefix_of (stops : Stops before size got sent reply after)
    (front : got <+: data) :
    sent <+: Image.encode (data.take (min size (payloadLength * payloadsRead size got.length))) := by
  obtain ⟨rest, rfl⟩ := front
  have fits := min_payloadsRead_le size got.length
  rw [List.take_append_of_le_length fits]
  exact stops.sent_prefix

/-- What was read is a front part of the data, and all of them if a fault of the source ended the
encoding. -/
structure FromData (data got : Bytes) (reply : Except StreamError Unit) : Prop where
  front : got <+: data
  fault {cause : IoError} : reply = .error (.source cause) → got = data

/-- How an encoding of `size` bytes of the data ends that has read `got` and written `sent`. -/
structure ByChunks (size : Nat) (data got sent : Bytes) (reply : Except StreamError Unit) : Prop where
  /-- The sink has no more than the chunks whose payloads were read completely. -/
  whole : sent <+: Image.encode (data.take (min size (payloadLength * payloadsRead size got.length)))
  ok_iff : reply = .ok () ↔ size ≤ data.length ∧ sent = Image.encode (data.take size)
  consumed : reply = .ok () → got = data.take size
  /-- The data end too early, and the sink has the image of the chunks that they fill. -/
  source_iff : (∃ cause, reply = .error (.source cause)) ↔ data.length < size ∧
    sent = Image.encode (data.take (payloadLength * chunkIndex data.length))
  /-- The sink failed in the frame of the last chunk of which anything was read. -/
  sink {cause : IoError} : reply = .error (.sink cause) → ∃ index, payloadLength * index < size ∧
    got = data.take (min size (payloadLength * (index + 1))) ∧
    Image.encode (data.take (payloadLength * index)) <+: sent ∧ sent <+: Image.encode got ∧
    sent ≠ Image.encode got

theorem Stops.fromData (stops : Stops before size got sent reply after)
    (dry : Source.DryAfter before.source data) : FromData data got reply := by
  cases stops with
  | done _ _ gives => exact ⟨dry.front gives, fun failed => (by cases failed)⟩
  | starved _ _ fault => exact ⟨dry.fault fault ▸ List.prefix_refl got, fun _ => dry.fault fault⟩
  | stuck _ _ _ _ _ _ gives => exact ⟨dry.front gives, fun failed => (by cases failed)⟩

/-- An encoding succeeds if the source gives as much as is to be encoded and the sink takes its
image. -/
theorem Stops.ok_iff (stops : Stops before size got sent reply after)
    (from_data : FromData data got reply) :
    reply = .ok () ↔ size ≤ data.length ∧ sent = Image.encode (data.take size) := by
  obtain ⟨rest, rfl⟩ := from_data.front
  rw [List.length_append]
  constructor
  · rintro rfl
    obtain ⟨all, whole⟩ := stops
    exact ⟨by omega, by rw [← all, List.take_left, whole]⟩
  · rintro ⟨long, image⟩
    have length := congrArg List.length image
    rw [Image.length_encode, List.length_take_of_le (by rwa [List.length_append])] at length
    -- In the two other cases too little was read or written.
    cases stops with
    | done => rfl
    | starved short =>
      have same := congrArg List.length (from_data.fault rfl)
      rw [List.length_append] at same
      omega
    | stuck _ _ read _ _ inside =>
      have mono : encodedLength got.length ≤ encodedLength size := encodedLength_mono (by omega)
      omega

/-- An encoding reports the source if that comes to a fault too early, and the sink takes the image of
the chunks before. -/
theorem Stops.source_iff (stops : Stops before size got sent reply after)
    (from_data : FromData data got reply) :
    (∃ cause, reply = .error (.source cause)) ↔
      data.length < size ∧
        sent = Image.encode (data.take (payloadLength * chunkIndex data.length)) := by
  obtain ⟨rest, rfl⟩ := from_data.front
  constructor
  · rintro ⟨_, rfl⟩
    obtain ⟨⟩ | ⟨short, whole⟩ := stops
    rw [← from_data.fault rfl]
    exact ⟨short, whole⟩
  · rintro ⟨short, image⟩
    rw [List.length_append] at short
    cases stops with
    | done => omega
    | starved => exact ⟨_, rfl⟩
    | stuck index _ read _ _ inside =>
      have inner := offset_split (got ++ rest).length
      have length := congrArg List.length image
      rw [Image.length_encode, List.length_take_of_le (by omega)] at length
      -- The chunk at which the sink failed was read completely, so it is one of these chunks.
      have full : got.length = payloadLength * (index + 1) := by omega
      have last : index + 1 ≤ chunkIndex (got ++ rest).length := by
        apply (Nat.le_div_iff_mul_le (by decide)).mpr
        rw [Nat.mul_comm, ← full, List.length_append]
        exact Nat.le_add_right _ _
      have mono : encodedLength got.length ≤
          encodedLength (payloadLength * chunkIndex (got ++ rest).length) := by
        rw [full]
        exact encodedLength_mono (Nat.mul_le_mul_left _ last)
      omega

/-- An encoding that reports the sink has written all chunks but the last one of which it has read
anything, and not all of that. -/
theorem Stops.sink_failed (stops : Stops before size got sent reply after)
    (from_data : FromData data got reply) {cause : IoError}
    (failed : reply = .error (.sink cause)) :
    ∃ index, payloadLength * index < size ∧
      got = data.take (min size (payloadLength * (index + 1))) ∧
      Image.encode (data.take (payloadLength * index)) <+: sent ∧ sent <+: Image.encode got ∧
      sent ≠ Image.encode got := by
  obtain ⟨rest, rfl⟩ := from_data.front
  subst failed
  obtain ⟨⟩ | ⟨⟩ | ⟨index, begun, read, part, behind, inside⟩ := stops
  refine ⟨index, begun, ?_, ?_, part, ?_⟩
  · rw [← read, List.take_left]
  · -- Both are in front of the image of what was read, and the first is not longer.
    have fits : payloadLength * index ≤ got.length := by
      rw [read, Nat.mul_succ]
      omega
    rw [List.take_append_of_le_length fits]
    have front : Image.encode (got.take (payloadLength * index)) <+: Image.encode got := by
      have aligned : payloadLength ∣ (got.take (payloadLength * index)).length :=
        ⟨index, List.length_take_of_le fits⟩
      have apart := Image.encode_append aligned (got.drop (payloadLength * index))
      rw [List.take_append_drop] at apart
      exact ⟨_, apart.symm⟩
    apply List.prefix_of_prefix_length_le front part
    rwa [Image.length_encode, List.length_take_of_le fits]
  · rintro rfl
    rw [Image.length_encode] at inside
    exact Nat.lt_irrefl _ inside

theorem Stops.byChunks (stops : Stops before size got sent reply after)
    (from_data : FromData data got reply) : ByChunks size data got sent reply where
  whole := stops.sent_prefix_of from_data.front
  ok_iff := stops.ok_iff from_data
  consumed := by
    rintro rfl
    obtain ⟨rest, rfl⟩ := from_data.front
    obtain ⟨all⟩ := stops
    rw [← all, List.take_left]
  source_iff := stops.source_iff from_data
  sink := stops.sink_failed from_data

end

section

variable [TracedSource ρ] [TracedSink κ]

/-- Sealing one chunk comes back, and ends in one of these ways. -/
theorem chunk_stops (sealing : Sealing ρ κ) {length : Nat} (some : length ≠ 0)
    (small : length ≤ payloadLength) :
    ∃ reply next got sent, sealing.chunk length = .ok (reply, next) ∧
      given next.source = given sealing.source ++ got ∧
      taken next.sink = taken sealing.sink ++ sent ∧ Stops sealing length got sent reply next := by
  obtain ⟨gathered, source, reading, grown⟩ :=
    TracedSource.gather_answers sealing.source length length
  have bound := Source.length_gather_le reading
  obtain ⟨filled, front, back, filling, view, header⟩ :=
    sealing.scratch.fill_payload gathered.bytes (Nat.le_trans bound small)
  rw [chunk, Source.readFull, reading, Checked.ok_bind]
  dsimp only
  rw [filling, Checked.ok_bind]
  -- Either the source comes to a fault and nothing is written, or a whole frame is offered.
  rcases Source.gives_or_faults (Nat.le_refl length) reading .unfilledBuffer with
    ⟨enough, gives⟩ | ⟨cause, failed, short, fault⟩
  · have exact : gathered.bytes.length = length :=
      Nat.le_antisymm bound (Gathered.le_of_outcome enough)
    have nonempty : gathered.bytes ≠ [] := List.length_pos_iff.mp (by omega)
    have frame := Image.encode_block nonempty (by omega)
    obtain ⟨scratch, sealed⟩ := Scratch.sealFrame_of_bytes header view
    rw [exact] at sealed
    rw [enough]
    dsimp only
    rw [sealed, Checked.ok_bind]
    dsimp only
    rcases TracedSink.writeAll_answers sealing.sink (Frame.ofPayload gathered.bytes) with
      ⟨sink, writing, kept, takes⟩ | ⟨cause, sink, count, writing, less, kept, fault⟩
    · rw [writing]
      exact ⟨_, _, gathered.bytes, _, rfl, grown, kept, .done exact frame.symm gives takes⟩
    · rw [writing]
      refine ⟨_, _, gathered.bytes, _, rfl, grown, kept, ?_⟩
      refine .stuck 0 (Nat.pos_of_ne_zero some) (by omega) ?_ (Nat.zero_le _) ?_ gives fault
      · rw [frame]
        exact List.take_prefix _ _
      · rw [← Image.length_encode, frame, List.length_take]
        omega
  · have none : chunkIndex gathered.bytes.length = 0 := Nat.div_eq_of_lt (by omega)
    rw [failed]
    refine ⟨_, _, gathered.bytes, [], rfl, grown, (List.append_nil _).symm, .starved short ?_ fault⟩
    rw [none, Nat.mul_zero, List.take_zero, Image.encode_nil]

/-- An encoding comes back, and ends in one of these ways. -/
theorem run_stops (sealing : Sealing ρ κ) (size : Nat) :
    ∃ reply last got sent, sealing.run size = .ok (reply, last) ∧
      given last.source = given sealing.source ++ got ∧
      taken last.sink = taken sealing.sink ++ sent ∧ Stops sealing size got sent reply last := by
  -- The induction is on the size; each chunk leaves a smaller one.
  induction size using Nat.strongRecOn generalizing sealing with
  | _ size ih =>
    rw [run]
    split
    next none =>
      refine ⟨_, sealing, [], [], rfl, (List.append_nil _).symm, (List.append_nil _).symm, ?_⟩
      exact .done none.symm Image.encode_nil.symm (.still _) (.still _)
    next some =>
      have positive : 0 < min size payloadLength :=
        Nat.lt_min.mpr ⟨Nat.pos_of_ne_zero some, by decide⟩
      obtain ⟨reply, middle, front, frames, sealed, grown, kept, stops⟩ :=
        sealing.chunk_stops (Nat.ne_of_gt positive) (Nat.min_le_right _ _)
      dsimp only
      rw [sealed]
      cases reply with
      | error error => exact ⟨_, middle, front, frames, rfl, grown, kept, stops.first⟩
      | ok _ =>
        obtain ⟨reply, last, got, sent, rest, further, more, ends⟩ :=
          ih (size - min size payloadLength) (by omega) middle
        refine ⟨reply, last, front ++ got, frames ++ sent, rest, ?_, ?_, stops.behind some ends⟩
        · rw [further, grown, List.append_assoc]
        · rw [more, kept, List.append_assoc]

/-- Whatever the devices do, an encoding comes back, and what it has written ends with a chunk unless the
sink itself failed (`ByChunks`). The data that this speaks of are those that a source gives before a
fault, and any others that continue what was read up to a fault. At no time, that is if both devices are
stopped after any number of calls, has the sink more than the chunks whose payloads were read completely
by then. -/
theorem stops_at_chunks (sealing : Sealing ρ κ) (size : Nat) :
    ∃ reply last got sent, sealing.run size = .ok (reply, last) ∧
      given last.source = given sealing.source ++ got ∧
      taken last.sink = taken sealing.sink ++ sent ∧ Stops sealing size got sent reply last ∧
      (∀ data, Source.DryAfter sealing.source data → FromData data got reply) ∧
      (∀ data, FromData data got reply → ByChunks size data got sent reply) ∧
      ∀ reads writes, ∃ answer state read written,
        (sealing.stopped reads writes).run size = .ok (answer, state) ∧
          state.unstopped.Leads last ∧
          given state.source.device = given sealing.source ++ read ∧ read <+: got ∧
          taken state.sink.device = taken sealing.sink ++ written ∧ written <+: sent ∧
          written <+:
            Image.encode (got.take (min size (payloadLength * payloadsRead size read.length))) := by
  obtain ⟨reply, last, got, sent, run, grown, kept, stops⟩ := sealing.run_stops size
  refine ⟨reply, last, got, sent, run, grown, kept, stops, fun _ => stops.fromData,
    fun _ => stops.byChunks, ?_⟩
  intro reads writes
  obtain ⟨answer, state, stopped_run, leads, _⟩ := (sealing.stopped reads writes).run_stopped run
  obtain ⟨answer', state', read, written, same, come, gone, ends⟩ :=
    (sealing.stopped reads writes).run_stops size
  cases stopped_run.symm.trans same
  have front : read <+: got := by
    have prefix_given := leads.reads.given_prefix
    rw [grown] at prefix_given
    exact (List.prefix_append_right_inj _).mp (come ▸ prefix_given)
  have behind : written <+: sent := by
    have prefix_taken := leads.writes.taken_prefix
    rw [kept] at prefix_taken
    exact (List.prefix_append_right_inj _).mp (gone ▸ prefix_taken)
  exact ⟨answer, state, read, written, stopped_run, leads, come, front, gone, behind,
    ends.sent_prefix_of front⟩

/-- A source of three bytes, when four are to be encoded. -/
theorem three_bytes_starve :
    let sealing : Sealing (Tap Feed) Outlet :=
      ⟨.start ⟨[1, 2, 3], [.limit 2, .fail (.bare .interrupted)]⟩, .fresh [.limit 1] [], .zero⟩
    ∃ reply last, sealing.run 4 = .ok (reply, last) ∧ (∃ cause, reply = .error (.source cause)) ∧
      last.source.given = [1, 2, 3] ∧ last.sink.taken = [] := by
  intro sealing
  have gentle : ∀ event ∈ [Event.limit 2, .fail (.bare .interrupted)], event.Gentle := by decide
  have supplies : Source.Supplies sealing.source [1, 2, 3] :=
    Tap.supplies (@Feed.supplies ⟨[1, 2, 3], _⟩ gentle)
  obtain ⟨reply, last, got, sent, run, grown, kept, stops, dry, ends, _⟩ :=
    stops_at_chunks sealing 4
  have from_data := dry [1, 2, 3] supplies.dryAfter
  have short : got.length ≤ 3 := from_data.front.length_le
  cases stops with
  | done all => omega
  | starved =>
    have none := ((ends _ from_data).source_iff.mp ⟨_, rfl⟩).2
    rw [from_data.fault rfl] at grown
    exact ⟨_, last, run, ⟨_, rfl⟩, grown, kept.trans (none.trans Image.encode_nil)⟩
  | stuck index _ read =>
    simp only [payloadLength] at read
    omega

end

end Sealing

end SealedStream
