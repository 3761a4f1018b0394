import SealedStream.Proofs.Canonicity
import SealedStream.Proofs.Contracts
import SealedStream.Proofs.Loops
import SealedStream.Writer.ChunkWriter

/-!
# Writing through a chunk writer

A chunk writer reports bytes as accepted before its sink has them, and goes on with a chunk where the
sink got stuck. `Holds` ties the two together: the sink has whole chunks and a front part of the frame
of the payload at hand, from which nothing but a full payload has been written. Every call keeps that
of the bytes accepted so far (`Keeps`), so that any calls whatever leave the sink with the image of
all but the last payload (`exchanges_account`).
-/
namespace SealedStream.ChunkWriter

open Layout

variable {κ : Type}

/-! ### Calls and replies -/

/-- A call on a chunk writer. -/
inductive Request where
  | write (bytes : Bytes)
  | flush

/-- A call with its reply. -/
inductive Exchange where
  | write (bytes : Bytes) (reply : Except IoError Nat)
  | flush (reply : Except IoError Unit)

namespace Exchange

def request : Exchange → Request
  | write bytes _ => .write bytes
  | flush _ => .flush

/-- The bytes that the call reports as accepted. -/
def accepted : Exchange → Bytes
  | write bytes (.ok count) => bytes.take count
  | write _ (.error _) => []
  | flush _ => []

end Exchange

/-- Makes a call. -/
def answer [Sink κ] (writer : ChunkWriter κ) : Request → Checked (Exchange × ChunkWriter κ)
  | .write bytes => do
    let (reply, writer) ← writer.write bytes
    return (.write bytes reply, writer)
  | .flush =>
    let (reply, writer) := writer.flush
    return (.flush reply, writer)

/-- Makes one call after the other. -/
def serve [Sink κ] (writer : ChunkWriter κ) :
    List Request → Checked (List Exchange × ChunkWriter κ)
  | [] => return ([], writer)
  | request :: requests => do
    let (exchange, writer) ← writer.answer request
    let (exchanges, writer) ← writer.serve requests
    return (exchange :: exchanges, writer)

/-! ### Parts -/

/-- A writer that holds nothing cuts what it is offered into payloads. -/
theorem parts_of_buffered_zero {writer : ChunkWriter κ} (empty : writer.buffered = 0)
    (bytes : Bytes) : writer.parts bytes = bytes.blocks payloadLength := by
  by_cases none : bytes = []
  · rw [none, Bytes.blocks_nil, parts, if_pos rfl]
  · rw [parts, if_neg none, empty, Bytes.blocks_of_ne_nil (by decide) none]
    rfl

variable [TracedSink κ]

open TracedSink (taken)

/-! ### What a writer holds -/

/-- Since its sink had `start`, the writer has sealed `done`, and it holds `payload`. -/
structure Holds (writer : ChunkWriter κ) (start done payload : Bytes) : Prop where
  aligned : payloadLength ∣ done.length
  small : payload.length ≤ payloadLength
  hasher : writer.hasher = Hasher.empty.update payload
  scratch : ∃ front back, writer.scratch.bytes = front ++ payload ++ back ∧
    front.length = headerLength ∧
    (writer.emitted ≠ 0 → front = (Checksum.of payload).header)
  unfinished : writer.emitted < headerLength + payload.length
  taken : taken writer.sink =
    start ++ Image.encode done ++ (Frame.ofPayload payload).take writer.emitted

namespace Holds

variable {writer : ChunkWriter κ} {start done payload : Bytes}

theorem buffered (holds : writer.Holds start done payload) : writer.buffered = payload.length := by
  rw [ChunkWriter.buffered, holds.hasher, Hasher.length_update]
  exact Nat.zero_add _

/-- A writer whose sink has whole chunks, and that has begun nothing else, holds nothing. -/
theorem of_empty (aligned : payloadLength ∣ done.length) (hasher : writer.hasher = .empty)
    (fresh : writer.emitted = 0) (taken : TracedSink.taken writer.sink = start ++ Image.encode done) :
    writer.Holds start done [] := by
  constructor
  case aligned => exact aligned
  case small => exact Nat.zero_le _
  case hasher => exact hasher
  case scratch =>
    refine ⟨writer.scratch.bytes.take headerLength, writer.scratch.bytes.drop headerLength, ?_, ?_, ?_⟩
    · rw [List.append_nil, List.take_append_drop]
    · rw [List.length_take, writer.scratch.length_eq]
      rfl
    · intro begun
      exact absurd fresh begun
  case unfinished =>
    rw [fresh]
    decide
  case taken => rw [taken, fresh, List.take_zero, List.append_nil]

/-- What comes behind the payload, as long as it fits and nothing of the chunk is written, is part of
the payload then. -/
theorem buffer (holds : writer.Holds start done payload) (fresh : writer.emitted = 0) {part : Bytes}
    (fits : payload.length + part.length ≤ payloadLength) :
    ∃ next, writer.buffer part = .ok next ∧ next.Holds start done (payload ++ part) ∧
      next.emitted = 0 ∧ next.sink = writer.sink := by
  obtain ⟨front, back, view, header, _⟩ := holds.scratch
  have place : (front ++ payload).length = headerLength + writer.buffered := by
    rw [List.length_append, header, holds.buffered]
  obtain ⟨filled, rest, filling, bytes⟩ := Scratch.fill_behind (front ++ payload) back part view
    (by rw [place, holds.buffered, ← headerLength_add_payloadLength]; omega)
  rw [place] at filling
  refine ⟨{ writer with scratch := filled, hasher := writer.hasher.update part }, ?_, ?_, fresh, rfl⟩
  · rw [ChunkWriter.buffer, filling]
    rfl
  · constructor
    case aligned => exact holds.aligned
    case small => rwa [List.length_append]
    case hasher => rw [holds.hasher, Hasher.update_append]
    case scratch =>
      refine ⟨front, rest, ?_, header, fun emitted => absurd fresh emitted⟩
      rw [bytes, List.append_assoc front]
    case unfinished =>
      have := holds.unfinished
      rw [List.length_append]
      dsimp only
      omega
    case taken => rw [holds.taken, fresh, List.take_zero, List.take_zero]

/-- Before its chunk is written, the scratch buffer starts with the frame of the payload. -/
theorem headed (holds : writer.Holds start done payload) :
    ∃ scratch back, writer.headed = .ok scratch ∧
      scratch.bytes = Frame.ofPayload payload ++ back := by
  obtain ⟨front, back, view, header, same⟩ := holds.scratch
  by_cases fresh : writer.emitted = 0
  · obtain ⟨filled, filling, sealed⟩ := Scratch.fill_header header view
    refine ⟨filled, back, ?_, sealed⟩
    rw [ChunkWriter.headed, if_pos fresh, holds.hasher, Hasher.digest_update]
    exact filling
  · refine ⟨writer.scratch, back, ?_, ?_⟩
    · rw [ChunkWriter.headed, if_neg fresh]
      rfl
    · rw [view, same fresh]
      rfl

end Holds

/-! ### Writing a chunk -/

/-- What writing the payload at hand as a chunk comes to. -/
inductive Emitted (start done payload : Bytes) :
    Except FinalError Unit → ChunkWriter κ → Prop
  | whole {next : ChunkWriter κ} (hasher : next.hasher = .empty) (fresh : next.emitted = 0)
      (taken : taken next.sink = start ++ Image.encode (done ++ payload)) :
      Emitted start done payload (.ok ()) next
  | stuck {cause : FinalError} {next : ChunkWriter κ} (holds : next.Holds start done payload) :
      Emitted start done payload (.error cause) next

/-- A chunk that the sink has taken makes room; one that it has not is gone on with. -/
theorem emit_of_push {writer : ChunkWriter κ} {scratch : Scratch} {rest : Bytes} {pushed : Pushed}
    {sink : κ} (heading : writer.headed = .ok scratch)
    (cut : scratch.slice writer.emitted (headerLength + writer.buffered) = .ok rest)
    (pushing : Sink.push writer.sink rest = .ok (pushed, sink)) :
    (pushed.outcome .writeZero = .ok () →
      writer.emit = .ok (.ok (), { sink, scratch, hasher := .empty, emitted := 0 })) ∧
    ∀ cause, pushed.outcome .writeZero = .error cause →
      writer.emit = .ok (.error cause,
        { writer with sink, scratch, emitted := writer.emitted + pushed.taken }) := by
  rw [ChunkWriter.emit, heading, Checked.ok_bind, cut, Checked.ok_bind, pushing, Checked.ok_bind]
  dsimp only
  constructor
  · intro outcome
    rw [outcome]
    rfl
  · intro cause outcome
    rw [outcome]
    rfl

/-- Writing the payload at hand comes back. It goes on where the sink got stuck, and a sink that takes
everything gets all of the chunk. -/
theorem Holds.emit {writer : ChunkWriter κ} {start done payload : Bytes}
    (holds : writer.Holds start done payload) (nonempty : payload ≠ []) :
    ∃ reply next, writer.emit = .ok (reply, next) ∧ Emitted start done payload reply next ∧
      (Sink.Accepts TracedSink.taken writer.sink →
        reply = .ok () ∧ Sink.Accepts TracedSink.taken next.sink) := by
  obtain ⟨scratch, back, heading, view⟩ := holds.headed
  have frame := Frame.length_ofPayload payload
  have unfinished := holds.unfinished
  have cut := Scratch.slice_of_front view (Nat.le_of_lt (frame ▸ unfinished)) (Nat.le_refl _)
  rw [List.take_length, frame] at cut
  obtain ⟨pushed, sink, pushing, grown, whole, short⟩ :=
    TracedSink.push_answers writer.sink ((Frame.ofPayload payload).drop writer.emitted)
  rw [holds.taken, List.append_assoc, ← List.take_add] at grown
  rw [List.length_drop, frame] at whole short
  obtain ⟨through, failing⟩ := emit_of_push heading (holds.buffered ▸ cut) pushing
  have accepts : Sink.Accepts TracedSink.taken writer.sink →
      pushed.outcome .writeZero = .ok () ∧ Sink.Accepts TracedSink.taken sink := by
    intro accepts
    obtain ⟨last, all, _, after⟩ := accepts.push ((Frame.ofPayload payload).drop writer.emitted)
    cases pushing.symm.trans all
    exact ⟨rfl, after⟩
  -- The sink took all that was left of the frame, or it is stuck further on in the same frame.
  cases outcome : pushed.outcome .writeZero with
  | ok _ =>
    rw [outcome] at accepts
    refine ⟨_, _, through outcome, .whole rfl rfl ?_, accepts⟩
    have count : writer.emitted + pushed.taken = (Frame.ofPayload payload).length := by
      have := whole (Pushed.stall_eq_none_iff.mp outcome)
      omega
    rw [grown, count, List.take_length, Image.encode_last holds.aligned nonempty holds.small,
      List.append_assoc]
  | error cause =>
    rw [outcome] at accepts
    refine ⟨_, _, failing cause outcome, .stuck ?_, accepts⟩
    have stalled : pushed.stall ≠ none := by
      intro none
      rw [Pushed.stall_eq_none_iff.mpr none] at outcome
      cases outcome
    constructor
    case aligned => exact holds.aligned
    case small => exact holds.small
    case hasher => exact holds.hasher
    case scratch => exact ⟨(Checksum.of payload).header, back, view, rfl, fun _ => rfl⟩
    case unfinished =>
      have := short stalled
      dsimp only
      omega
    case taken => rw [grown, List.append_assoc]

/-! ### Single calls -/

/-- Since its sink had `start`, the writer has accepted `accepted`. Only a full payload is ever written
in part. -/
def Keeps (writer : ChunkWriter κ) (start accepted : Bytes) : Prop :=
  ∃ done payload, accepted = done ++ payload ∧ writer.Holds start done payload ∧
    (writer.emitted ≠ 0 → payload.length = payloadLength)

/-- The same of a writer that has room in its payload. -/
def Open (writer : ChunkWriter κ) (start accepted : Bytes) : Prop :=
  ∃ done payload, accepted = done ++ payload ∧ writer.Holds start done payload ∧
    writer.emitted = 0 ∧ payload.length < payloadLength

variable {writer : ChunkWriter κ} {start accepted : Bytes}

theorem Open.keeps (opened : writer.Open start accepted) : writer.Keeps start accepted := by
  obtain ⟨done, payload, split, holds, fresh, _⟩ := opened
  exact ⟨done, payload, split, holds, fun begun => absurd fresh begun⟩

theorem Open.create (sink : κ) (scratch : Scratch) :
    (ChunkWriter.create sink scratch).Open (taken sink) [] := by
  refine ⟨[], [], rfl, .of_empty (Nat.dvd_zero _) rfl rfl ?_, rfl, by decide⟩
  rw [Image.encode_nil, List.append_nil]
  rfl

/-- A full payload that the sink has taken leaves the writer with room. -/
theorem Emitted.opens {done payload : Bytes} (aligned : payloadLength ∣ done.length)
    (full : payload.length = payloadLength) (emitted : Emitted start done payload (.ok ()) writer) :
    writer.Open start (done ++ payload) ∧ writer.buffered = 0 := by
  cases emitted with
  | whole hasher fresh taken =>
    have longer : payloadLength ∣ (done ++ payload).length := by
      rw [List.length_append, full]
      exact Nat.dvd_add aligned (Nat.dvd_refl _)
    have holds := Holds.of_empty longer hasher fresh taken
    exact ⟨⟨_, [], (List.append_nil _).symm, holds, fresh, by decide⟩, holds.buffered⟩

/-- The first part of what is offered fits the payload, and fills it unless it is the last. -/
theorem Open.first_part (opened : writer.Open start accepted) {bytes : Bytes} (some : bytes ≠ []) :
    ∃ part rest, bytes = part ++ rest ∧ part ≠ [] ∧
      writer.buffered + part.length ≤ payloadLength ∧
      (writer.buffered + part.length = payloadLength ∨ rest = []) ∧
      writer.parts bytes = part :: Bytes.blocks payloadLength rest := by
  obtain ⟨done, payload, rfl, holds, fresh, free⟩ := opened
  rw [← holds.buffered] at free
  have positive : 0 < bytes.length := List.length_pos_iff.mpr some
  have length := List.length_take (i := payloadLength - writer.buffered) (l := bytes)
  refine ⟨bytes.take (payloadLength - writer.buffered), bytes.drop (payloadLength - writer.buffered),
    (List.take_append_drop _ _).symm, ?_, by omega, ?_, ?_⟩
  · apply List.length_pos_iff.mp
    omega
  · by_cases long : payloadLength - writer.buffered ≤ bytes.length
    · exact .inl (by omega)
    · exact .inr (List.drop_of_length_le (by omega))
  · rw [parts, if_neg some]

/-- A part that fits the payload is accepted. If it fills the payload and the chunk gets stuck, the
parts behind it are not. -/
theorem Open.absorb_part (opened : writer.Open start accepted) {part : Bytes} (some : part ≠ [])
    (fits : writer.buffered + part.length ≤ payloadLength) :
    (∃ next : ChunkWriter κ, (∀ parts, writer.absorb (part :: parts) = .ok (part.length, next)) ∧
      next.Keeps start (accepted ++ part) ∧ ¬ Sink.Accepts taken writer.sink) ∨
    (∃ next : ChunkWriter κ, (∀ parts, writer.absorb (part :: parts) =
        (next.absorb parts).map fun (count, last) => (part.length + count, last)) ∧
      next.Open start (accepted ++ part) ∧
      (writer.buffered + part.length = payloadLength → next.buffered = 0) ∧
      (Sink.Accepts taken writer.sink → Sink.Accepts taken next.sink)) := by
  obtain ⟨done, payload, rfl, holds, fresh, _⟩ := opened
  rw [holds.buffered] at fits ⊢
  obtain ⟨filled, buffering, held, unwritten, same⟩ := holds.buffer fresh fits
  have length : (payload ++ part).length = payload.length + part.length := List.length_append
  by_cases full : payload.length + part.length = payloadLength
  · have nonempty : payload ++ part ≠ [] := by simp [some]
    obtain ⟨reply, next, emitting, emitted, perfect⟩ := held.emit nonempty
    rw [same] at perfect
    have due : filled.buffered = payloadLength := by rw [held.buffered, length, full]
    cases reply with
    | error cause =>
      cases emitted with
      | stuck holds =>
        refine .inl ⟨next, fun parts => ?_, ⟨done, _, List.append_assoc _ _ _, holds, ?_⟩, ?_⟩
        · rw [ChunkWriter.absorb, buffering, Checked.ok_bind, if_pos due, emitting]
          rfl
        · intro _
          rw [length, full]
        · intro accepts
          cases (perfect accepts).1
    | ok _ =>
      obtain ⟨opens, empty⟩ := emitted.opens held.aligned (length.trans full)
      rw [← List.append_assoc] at opens
      refine .inr ⟨next, fun parts => ?_, opens, fun _ => empty, fun accepts => (perfect accepts).2⟩
      rw [ChunkWriter.absorb, buffering, Checked.ok_bind, if_pos due, emitting, Checked.ok_bind]
      dsimp only
      cases next.absorb parts <;> rfl
  · refine .inr ⟨filled, fun parts => ?_, ?_, fun filling => absurd filling full, ?_⟩
    · rw [ChunkWriter.absorb, buffering, Checked.ok_bind, if_neg (by rwa [held.buffered, length])]
      cases filled.absorb parts <;> rfl
    · exact ⟨done, _, List.append_assoc _ _ _, held, unwritten, by omega⟩
    · rw [same]
      exact id

/-- A writer with room accepts what it is offered, up to the end of a chunk that gets stuck. -/
theorem Open.absorb (opened : writer.Open start accepted) (bytes : Bytes) :
    ∃ count next, writer.absorb (writer.parts bytes) = .ok (count, next) ∧
      next.Keeps start (accepted ++ bytes.take count) ∧ (bytes ≠ [] → 0 < count) ∧
      (Sink.Accepts taken writer.sink →
        count = bytes.length ∧ Sink.Accepts taken next.sink) := by
  -- The induction is on what is offered. A part that does not fill the payload is the last, and
  -- behind one that does the writer starts a new payload.
  induction length : bytes.length using Nat.strongRecOn generalizing writer accepted bytes with
  | _ _ ih =>
    subst length
    by_cases none : bytes = []
    · subst none
      refine ⟨0, writer, ?_, ?_, fun some => absurd rfl some, fun accepts => ⟨rfl, accepts⟩⟩
      · rw [parts, if_pos rfl]
        rfl
      · rw [List.take_nil, List.append_nil]
        exact opened.keeps
    · obtain ⟨part, rest, split, some, fits, full, cut⟩ := opened.first_part none
      subst split
      rw [cut]
      have positive : 0 < part.length := List.length_pos_iff.mpr some
      rcases opened.absorb_part some fits with
        ⟨next, step, keeps, stuck⟩ | ⟨middle, step, after, empty, perfect⟩
      · refine ⟨part.length, next, step _, ?_, fun _ => positive, fun accepts => absurd accepts stuck⟩
        rwa [List.take_left]
      · have parts : middle.parts rest = Bytes.blocks payloadLength rest := by
          rcases full with full | rfl
          · exact parts_of_buffered_zero (empty full) rest
          · rw [Bytes.blocks_nil, ChunkWriter.parts, if_pos rfl]
        obtain ⟨count, last, run, keeps, _, all⟩ :=
          ih rest.length (by rw [List.length_append]; omega) after rest rfl
        rw [parts] at run
        refine ⟨part.length + count, last, ?_, ?_, fun _ => by omega, fun accepts => ?_⟩
        · rw [step, run]
          rfl
        · rwa [List.take_length_add_append, ← List.append_assoc]
        · obtain ⟨exact, final⟩ := all (perfect accepts)
          exact ⟨by rw [exact, List.length_append], final⟩

/-- A chunk that is full goes first; a writer that is rid of it has room. -/
theorem Keeps.emitIf (keeps : writer.Keeps start accepted) :
    ∃ reply next, writer.emitIf (writer.buffered = payloadLength) = .ok (reply, next) ∧
      (∀ cause, reply = .error cause → next.Keeps start accepted) ∧
      (reply = .ok () → next.Open start accepted) ∧
      (Sink.Accepts taken writer.sink → reply = .ok () ∧ Sink.Accepts taken next.sink) := by
  obtain ⟨done, payload, rfl, holds, begun⟩ := keeps
  by_cases full : payload.length = payloadLength
  · have nonempty : payload ≠ [] := by
      apply List.length_pos_iff.mp
      rw [full]
      decide
    obtain ⟨reply, next, run, emitted, perfect⟩ := holds.emit nonempty
    refine ⟨reply, next, ?_, ?_, ?_, perfect⟩
    · rw [ChunkWriter.emitIf, if_pos (decide_eq_true (holds.buffered.trans full)), run]
    · rintro cause rfl
      cases emitted with
      | stuck holds => exact ⟨done, payload, rfl, holds, fun _ => full⟩
    · rintro rfl
      exact (emitted.opens holds.aligned full).1
  · refine ⟨.ok (), writer, ?_, ?_, ?_, fun accepts => ⟨rfl, accepts⟩⟩
    · rw [ChunkWriter.emitIf, holds.buffered, decide_eq_false full]
      rfl
    · rintro cause ⟨⟩
    · intro _
      have := holds.small
      exact ⟨done, payload, rfl, holds, Decidable.not_not.mp fun begun' => full (begun begun'),
        by omega⟩

/-- A write accepts what it reports, and some of what is offered if it does not fail. -/
theorem Keeps.write (keeps : writer.Keeps start accepted) (bytes : Bytes) :
    ∃ reply next, writer.write bytes = .ok (reply, next) ∧
      next.Keeps start (accepted ++ (Exchange.write bytes reply).accepted) ∧
      (reply = .ok 0 → bytes = []) ∧
      (Sink.Accepts taken writer.sink →
        reply = .ok bytes.length ∧ Sink.Accepts taken next.sink) := by
  obtain ⟨reply, ready, emitting, stuck, opens, perfect⟩ := keeps.emitIf
  rw [ChunkWriter.write, emitting, Checked.ok_bind]
  cases reply with
  | error cause =>
    refine ⟨.error cause.toIo, ready, rfl, ?_, ?_, ?_⟩
    · rw [Exchange.accepted, List.append_nil]
      exact stuck cause rfl
    · rintro ⟨⟩
    · intro accepts
      cases (perfect accepts).1
  | ok _ =>
    obtain ⟨count, last, run, keeps, some, all⟩ := (opens rfl).absorb bytes
    refine ⟨.ok count, last, ?_, keeps, ?_, ?_⟩
    · dsimp only
      rw [run]
      rfl
    · rintro ⟨⟩
      exact Decidable.byContradiction fun nonempty => Nat.lt_irrefl 0 (some nonempty)
    · intro accepts
      obtain ⟨exact, after⟩ := all (perfect accepts).2
      exact ⟨congrArg _ exact, after⟩

/-- A flush accepts nothing. -/
theorem Keeps.flush (keeps : writer.Keeps start accepted) :
    writer.flush.2.Keeps start accepted := by
  obtain ⟨done, payload, split, holds, begun⟩ := keeps
  refine ⟨done, payload, split, ?_, begun⟩
  have same : taken writer.flush.2.sink = taken writer.sink := TracedSink.taken_flush writer.sink
  exact { holds with taken := same.trans holds.taken }

/-- The payload at hand makes the last chunk, of which the sink takes all or a front part. -/
theorem Keeps.emitLast (keeps : writer.Keeps start accepted) :
    ∃ reply next, writer.emitIf (0 < writer.buffered) = .ok (reply, next) ∧
      (∃ part, taken next.sink = start ++ part ∧ part <+: Image.encode accepted) ∧
      (reply = .ok () → taken next.sink = start ++ Image.encode accepted) ∧
      (Sink.Accepts taken writer.sink → reply = .ok ()) := by
  obtain ⟨done, payload, rfl, holds, begun⟩ := keeps
  by_cases none : payload = []
  · subst none
    have fresh : writer.emitted = 0 := Decidable.not_not.mp fun begun' => by cases begun begun'
    have whole := holds.taken
    rw [fresh, List.take_zero, List.append_nil] at whole
    rw [List.append_nil]
    refine ⟨.ok (), writer, ?_, ⟨_, whole, List.prefix_refl _⟩, fun _ => whole, fun _ => rfl⟩
    rw [ChunkWriter.emitIf, holds.buffered]
    rfl
  · obtain ⟨reply, next, run, emitted, perfect⟩ := holds.emit none
    have due : 0 < writer.buffered := by
      rw [holds.buffered]
      exact List.length_pos_iff.mpr none
    refine ⟨reply, next, ?_, ?_, ?_, fun accepts => (perfect accepts).1⟩
    · rw [ChunkWriter.emitIf, if_pos (decide_eq_true due), run]
    · cases emitted with
      | whole _ _ taken => exact ⟨_, taken, List.prefix_refl _⟩
      | stuck holds =>
        refine ⟨_, by rw [holds.taken, List.append_assoc], ?_⟩
        rw [Image.encode_last holds.aligned none holds.small]
        exact (List.prefix_append_right_inj _).mpr (List.take_prefix _ _)
    · rintro rfl
      cases emitted with
      | whole _ _ taken => exact taken

/-- Finishing leaves the sink with the image, or with a front part of it. A sink that takes everything
has the image, and is flushed. -/
theorem Keeps.finish (keeps : writer.Keeps start accepted) :
    ∃ reply last, writer.finish = .ok (reply, last) ∧
      (∃ part, taken last.sink = start ++ part ∧ part <+: Image.encode accepted) ∧
      (reply = .ok () → taken last.sink = start ++ Image.encode accepted) ∧
      (Sink.Accepts taken writer.sink → ∃ sink, taken sink = start ++ Image.encode accepted ∧
        reply = (Sink.flush sink).1 ∧ last.sink = (Sink.flush sink).2) := by
  obtain ⟨reply, next, emitting, front, whole, perfect⟩ := keeps.emitLast
  rw [ChunkWriter.finish, emitting, Checked.ok_bind]
  cases reply with
  | error cause =>
    refine ⟨.error cause.toIo, next, rfl, front, ?_, ?_⟩
    · rintro ⟨⟩
    · intro accepts
      cases perfect accepts
  | ok _ =>
    have flushed : taken next.flush.2.sink = taken next.sink := TracedSink.taken_flush next.sink
    refine ⟨next.flush.1, next.flush.2, rfl, ?_, fun _ => flushed.trans (whole rfl), fun _ => ?_⟩
    · exact front.imp fun _ => And.imp_left flushed.trans
    · exact ⟨next.sink, whole rfl, rfl, rfl⟩

/-! ### Runs -/

/-- A call comes back, and the writer keeps what it has accepted by then. -/
theorem Keeps.answer (keeps : writer.Keeps start accepted) (request : Request) :
    ∃ exchange next, writer.answer request = .ok (exchange, next) ∧ exchange.request = request ∧
      (∀ bytes, exchange = .write bytes (.ok 0) → bytes = []) ∧
      next.Keeps start (accepted ++ exchange.accepted) := by
  cases request with
  | write bytes =>
    obtain ⟨reply, next, run, kept, some, _⟩ := keeps.write bytes
    refine ⟨.write bytes reply, next, ?_, rfl, ?_, kept⟩
    · rw [ChunkWriter.answer, run]
      rfl
    · rintro _ ⟨⟩
      exact some rfl
  | flush =>
    refine ⟨.flush writer.flush.1, writer.flush.2, rfl, rfl, ?_, ?_⟩
    · rintro _ ⟨⟩
    · rw [Exchange.accepted, List.append_nil]
      exact keeps.flush

theorem Keeps.serve (keeps : writer.Keeps start accepted) (requests : List Request) :
    ∃ exchanges last, writer.serve requests = .ok (exchanges, last) ∧
      exchanges.map Exchange.request = requests ∧
      (∀ bytes, Exchange.write bytes (.ok 0) ∈ exchanges → bytes = []) ∧
      last.Keeps start (accepted ++ exchanges.flatMap Exchange.accepted) := by
  induction requests generalizing writer accepted with
  | nil =>
    refine ⟨[], writer, rfl, rfl, ?_, ?_⟩
    · intro _ member
      cases member
    · simpa using keeps
  | cons request requests ih =>
    obtain ⟨exchange, next, call, first, some, kept⟩ := keeps.answer request
    obtain ⟨exchanges, last, run, others, all, final⟩ := ih kept
    refine ⟨exchange :: exchanges, last, ?_, ?_, ?_, ?_⟩
    · rw [ChunkWriter.serve, call, Checked.ok_bind]
      dsimp only
      rw [run]
      rfl
    · rw [List.map_cons, first, others]
    · intro bytes member
      rcases List.mem_cons.mp member with same | member
      · exact some bytes same.symm
      · exact all bytes member
    · rw [List.flatMap_cons, ← List.append_assoc]
      exact final

/-- With a sink that takes everything, every write is accepted whole. -/
theorem Keeps.serve_writes (keeps : writer.Keeps start accepted)
    (accepts : Sink.Accepts taken writer.sink) (pieces : List Bytes) :
    ∃ last, writer.serve (pieces.map .write) =
        .ok (pieces.map fun piece => .write piece (.ok piece.length), last) ∧
      last.Keeps start (accepted ++ pieces.flatten) ∧ Sink.Accepts taken last.sink := by
  induction pieces generalizing writer accepted with
  | nil => exact ⟨writer, rfl, by simpa using keeps, accepts⟩
  | cons piece pieces ih =>
    obtain ⟨reply, next, call, kept, _, all⟩ := keeps.write piece
    obtain ⟨rfl, after⟩ := all accepts
    rw [Exchange.accepted, List.take_length] at kept
    obtain ⟨last, run, final, left⟩ := ih kept after
    refine ⟨last, ?_, ?_, left⟩
    · rw [List.map_cons, ChunkWriter.serve, ChunkWriter.answer, call]
      simp only [Checked.ok_bind, run, pure, Except.pure, List.map_cons]
    · rw [List.flatten_cons, ← List.append_assoc]
      exact final

/-- The number of whole chunks that the sink has taken since it had `start`. -/
def wholeChunks (writer : ChunkWriter κ) (start : Bytes) : Nat :=
  ((taken writer.sink).length - start.length) / chunkLength

/-- How the bytes that a writer has accepted are shared between its sink, which had `start` at first,
and its buffer. The sink has the image of whole chunks, and then a part of the next chunk that falls
short of it, and is empty unless a full payload waits. -/
structure Accounts (writer : ChunkWriter κ) (start accepted : Bytes) : Prop where
  taken : ∃ part, taken writer.sink =
      start ++ Image.encode (accepted.take (payloadLength * writer.wholeChunks start)) ++ part ∧
    part <+: Frame.ofPayload (accepted.drop (payloadLength * writer.wholeChunks start)) ∧
    part.length < headerLength + writer.buffered ∧
    (part ≠ [] → writer.buffered = payloadLength)
  length : accepted.length = payloadLength * writer.wholeChunks start + writer.buffered
  bounded : writer.buffered ≤ payloadLength

theorem Holds.wholeChunks {done payload : Bytes} (holds : writer.Holds start done payload) :
    payloadLength * writer.wholeChunks start = done.length := by
  obtain ⟨chunks, aligned⟩ := holds.aligned
  have length := congrArg List.length holds.taken
  have short := holds.unfinished
  have small := holds.small
  have image := Image.length_encode done
  rw [aligned, encodedLength_full] at image
  rw [List.length_append, List.length_append, List.length_take, Frame.length_ofPayload, image] at length
  rw [Nat.min_eq_left (Nat.le_of_lt short)] at length
  have beyond : (TracedSink.taken writer.sink).length - start.length =
      chunkLength * chunks + writer.emitted := by omega
  have less : writer.emitted < chunkLength := by
    rw [← headerLength_add_payloadLength]
    omega
  rw [aligned, ChunkWriter.wholeChunks, beyond, Nat.mul_add_div (by decide), Nat.div_eq_of_lt less,
    Nat.add_zero]

theorem Keeps.accounts (keeps : writer.Keeps start accepted) : writer.Accounts start accepted := by
  obtain ⟨done, payload, rfl, holds, begun⟩ := keeps
  have chunks := holds.wholeChunks
  constructor
  case taken =>
    rw [chunks, List.take_left, List.drop_left, holds.buffered]
    refine ⟨_, holds.taken, List.take_prefix _ _, ?_, ?_⟩
    · exact Nat.lt_of_le_of_lt (List.length_take_le _ _) holds.unfinished
    · intro some
      apply begun
      intro fresh
      rw [fresh] at some
      exact some List.take_zero
  case length => rw [chunks, List.length_append, holds.buffered]
  case bounded =>
    rw [holds.buffered]
    exact holds.small

/-- Whatever calls are made, and whatever the sink does, no byte is lost, doubled or moved: the sink
and the buffer account for what was accepted, and finishing brings the sink the rest of the image. -/
theorem exchanges_account (sink : κ) (scratch : Scratch) (requests : List Request) :
    ∃ exchanges writer, (create sink scratch).serve requests = .ok (exchanges, writer) ∧
      exchanges.map Exchange.request = requests ∧
      (∀ bytes, Exchange.write bytes (.ok 0) ∈ exchanges → bytes = []) ∧
      writer.Accounts (taken sink) (exchanges.flatMap Exchange.accepted) ∧
      ∃ reply last, writer.finish = .ok (reply, last) ∧
        (reply = .ok () →
          taken last.sink = taken sink ++ Image.encode (exchanges.flatMap Exchange.accepted)) ∧
        (∀ error, reply = .error error → ∃ part, taken last.sink = taken sink ++ part ∧
          part <+: Image.encode (exchanges.flatMap Exchange.accepted)) := by
  obtain ⟨exchanges, writer, run, same, some, keeps⟩ :=
    (Open.create sink scratch).keeps.serve requests
  rw [List.nil_append] at keeps
  obtain ⟨reply, last, finishing, front, whole, _⟩ := keeps.finish
  exact ⟨exchanges, writer, run, same, some, keeps.accounts, reply, last, finishing, whole,
    fun _ _ => front⟩

end SealedStream.ChunkWriter
