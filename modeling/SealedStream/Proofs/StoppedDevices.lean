import SealedStream.Proofs.Halting
import SealedStream.Proofs.Loops
import SealedStream.Writer.Sealing

/-!
# Devices that are stopped

A device that is stopped after a number of calls (`Stopped`) shows what a run looks like in between:
the run then ends with the device as it was at that time. `Sealing.run_stopped` says so of an encoding
with both devices stopped. The encoding itself comes by the states in which they are left, and unless
it was cut short it is the same as without the stop.
-/
namespace SealedStream

open Layout

/-- A device and how many reads or writes may still reach it. All others fail. -/
structure Stopped (δ : Type) where
  device : δ
  calls : Nat

namespace Stopped

variable {δ α : Type} {stopped next : Stopped δ} {reply : Except IoError α}
  (inner : δ → Checked (Except IoError α × δ))

def stop : FinalError := ⟨.bare .other, by decide⟩

def call (stopped : Stopped δ) (inner : δ → Checked (Except IoError α × δ)) :
    Checked (Except IoError α × Stopped δ) :=
  match stopped.calls with
  | 0 => .ok (.error stop.toIo, stopped)
  | calls + 1 => (inner stopped.device).map fun (reply, device) => (reply, ⟨device, calls⟩)

/-- A call is refused and changes nothing, or it reaches the device. -/
theorem of_call (run : stopped.call inner = .ok (reply, next)) :
    (reply = .error stop.toIo ∧ next = stopped) ∨
      inner stopped.device = .ok (reply, next.device) := by
  unfold call at run
  split at run
  next =>
    cases run
    exact .inl ⟨rfl, rfl⟩
  next =>
    cases called : inner stopped.device with
    | error trap =>
      rw [called] at run
      cases run
    | ok result =>
      rw [called] at run
      cases run
      exact .inr rfl

theorem of_call_trap {trap : Trap} (run : stopped.call inner = .error trap) :
    inner stopped.device = .error trap := by
  unfold call at run
  split at run
  next => cases run
  next =>
    cases called : inner stopped.device with
    | error trap =>
      rw [called] at run
      cases run
      rfl
    | ok result =>
      rw [called] at run
      cases run

/-- A call of which the device comes back is refused, or brings the same. -/
theorem call_answers {device : δ}
    (called : inner stopped.device = .ok (reply, device)) :
    stopped.call inner = .ok (.error stop.toIo, stopped) ∨
      ∃ calls, stopped.call inner = .ok (reply, ⟨device, calls⟩) := by
  unfold call
  split
  next => exact .inl rfl
  next calls _ =>
    rw [called]
    exact .inr ⟨calls, rfl⟩

end Stopped

/-! ### Stopped sources -/

namespace Source

variable {ρ : Type}

instance [Source ρ] : Source (Stopped ρ) where
  read stopped room := stopped.call (Source.read · room)
  interruptions stopped := Source.interruptions stopped.device
  length_le_room call := by
    rcases Stopped.of_call _ call with ⟨refused, _⟩ | called
    · cases refused
    · exact length_le_room called
  interruptions_le call := by
    rcases Stopped.of_call _ call with ⟨_, rfl⟩ | called
    · exact Nat.le_refl _
    · exact interruptions_le called
  interruptions_lt call kind := by
    rcases Stopped.of_call _ call with ⟨refused, _⟩ | called
    · cases refused
      exact absurd kind Stopped.stop.kind_ne
    · exact interruptions_lt called kind

instance [TracedSource ρ] : TracedSource (Stopped ρ) where
  read_answers stopped room := by
    obtain ⟨reply, next, called⟩ := TotalSource.read_answers stopped.device room
    rcases Stopped.call_answers (Source.read · room) called with refused | ⟨calls, reached⟩
    · exact ⟨_, _, refused⟩
    · exact ⟨_, _, reached⟩
  given stopped := TracedSource.given stopped.device
  given_read call := by
    rcases Stopped.of_call _ call with ⟨refused, _⟩ | called
    · cases refused
    · exact TracedSource.given_read called
  given_read_error call := by
    rcases Stopped.of_call _ call with ⟨_, rfl⟩ | called
    · rfl
    · exact TracedSource.given_read_error called

variable [Source ρ]

theorem ReadsTo.trans {first second third : ρ} (front : ReadsTo first second)
    (back : ReadsTo second third) : ReadsTo first third := by
  induction back with
  | still => exact front
  | more _ call ih => exact ih.more call

theorem ReadsTo.given_prefix {ρ : Type} [TracedSource ρ] {first last : ρ}
    (reads : ReadsTo first last) : TracedSource.given first <+: TracedSource.given last := by
  induction reads with
  | still => exact List.prefix_refl _
  | @more middle last _ reply _ call ih =>
    cases reply with
    | ok bytes => exact ih.trans (TracedSource.given_read call ▸ List.prefix_append _ bytes)
    | error error => rwa [TracedSource.given_read_error call]

theorem of_read_stopped {stopped next : Stopped ρ} {room : Nat} {bytes : Bytes}
    (call : read stopped room = .ok (.ok bytes, next)) :
    read stopped.device room = .ok (.ok bytes, next.device) := by
  rcases Stopped.of_call _ call with ⟨refused, _⟩ | called
  · cases refused
  · exact called

/-- A gathering from a stopped source is the gathering, or cut short on the way. -/
theorem gather_stopped (stopped : Stopped ρ) {need room : Nat} {gathered : Gathered} {last : ρ}
    (run : gather stopped.device need room = .ok (gathered, last)) :
    ∃ answer state, gather stopped need room = .ok (answer, state) ∧ ReadsTo state.device last ∧
      (answer = gathered ∧ state.device = last ∨ answer.failure = some Stopped.stop) := by
  have reads := (ReadsTo.still stopped.device).gather run
  -- The induction follows the gathering that is stopped. It parts from the other at a final error only.
  fun_induction gather stopped need room generalizing gathered last with
  | case1 stopped room =>
    rw [gather, if_pos rfl] at run
    cases run
    exact ⟨_, stopped, rfl, reads, .inl ⟨rfl, rfl⟩⟩
  | case2 stopped need room wanting trap call =>
    have called : read stopped.device room = .error trap := Stopped.of_call_trap _ call
    rw [gather_eq_bind _ wanting, called] at run
    cases run
  | case3 stopped need room wanting next call =>
    rw [gather_of_end wanting (of_read_stopped call)] at run
    cases run
    exact ⟨_, _, rfl, .still _, .inl ⟨rfl, rfl⟩⟩
  | case4 stopped need room wanting bytes next call some trap inner ih =>
    rw [gather_of_part wanting some (of_read_stopped call)] at run
    obtain ⟨⟨rest, _⟩, further, _⟩ := Checked.bind_eq_ok_iff.mp run
    obtain ⟨_, _, answer, _⟩ := ih further ((ReadsTo.still _).gather further)
    cases inner.symm.trans answer
  | case5 stopped need room wanting bytes next call some rest state inner ih =>
    rw [gather_of_part wanting some (of_read_stopped call)] at run
    obtain ⟨⟨whole, _⟩, further, run⟩ := Checked.bind_eq_ok_iff.mp run
    cases run
    obtain ⟨_, _, answer, leads, ends⟩ := ih further ((ReadsTo.still _).gather further)
    cases inner.symm.trans answer
    refine ⟨_, state, rfl, leads, ends.imp_left ?_⟩
    rintro ⟨rfl, same⟩
    exact ⟨rfl, same⟩
  | case6 stopped need room wanting error next call kind ih =>
    rcases Stopped.of_call _ call with ⟨refused, _⟩ | called
    · cases refused
      exact absurd kind Stopped.stop.kind_ne
    · rw [gather_of_interrupted wanting kind called] at run
      exact ih run ((ReadsTo.still _).gather run)
  | case7 stopped need room wanting error next call final =>
    rcases Stopped.of_call _ call with ⟨refused, rfl⟩ | called
    · cases refused
      exact ⟨_, _, rfl, reads, .inr rfl⟩
    · rw [@gather_of_failed _ _ _ _ _ _ wanting ⟨error, final⟩ called] at run
      cases run
      exact ⟨_, _, rfl, .still _, .inl ⟨rfl, rfl⟩⟩

end Source

/-! ### Stopped sinks -/

namespace Sink

variable {κ : Type}

instance [Sink κ] : Sink (Stopped κ) where
  write stopped bytes := stopped.call (Sink.write · bytes)
  flush stopped := ((Sink.flush stopped.device).1, ⟨(Sink.flush stopped.device).2, stopped.calls⟩)
  interruptions stopped := Sink.interruptions stopped.device
  taken_le_length call := by
    rcases Stopped.of_call _ call with ⟨refused, _⟩ | called
    · cases refused
    · exact taken_le_length called
  interruptions_le call := by
    rcases Stopped.of_call _ call with ⟨_, rfl⟩ | called
    · exact Nat.le_refl _
    · exact interruptions_le called
  interruptions_lt call kind := by
    rcases Stopped.of_call _ call with ⟨refused, _⟩ | called
    · cases refused
      exact absurd kind Stopped.stop.kind_ne
    · exact interruptions_lt called kind

instance [TracedSink κ] : TracedSink (Stopped κ) where
  taken stopped := TracedSink.taken stopped.device
  write_answers stopped bytes := by
    obtain ⟨reply, next, called⟩ := TracedSink.write_answers stopped.device bytes
    rcases Stopped.call_answers (Sink.write · bytes) called with refused | ⟨calls, reached⟩
    · exact ⟨_, _, refused⟩
    · exact ⟨_, _, reached⟩
  taken_write call := by
    rcases Stopped.of_call _ call with ⟨refused, _⟩ | called
    · cases refused
    · exact TracedSink.taken_write called
  taken_write_error call := by
    rcases Stopped.of_call _ call with ⟨_, rfl⟩ | called
    · rfl
    · exact TracedSink.taken_write_error called
  taken_flush stopped := TracedSink.taken_flush stopped.device

variable [Sink κ]

/-- Writes lead from one state of a sink to another. -/
inductive WritesTo : κ → κ → Prop
  | still (sink : κ) : WritesTo sink sink
  | more {sink middle last : κ} {bytes : Bytes} {reply : Except IoError Nat}
      (front : WritesTo sink middle) (call : write middle bytes = .ok (reply, last)) :
      WritesTo sink last

theorem WritesTo.trans {first second third : κ} (front : WritesTo first second)
    (back : WritesTo second third) : WritesTo first third := by
  induction back with
  | still => exact front
  | more _ call ih => exact ih.more call

theorem WritesTo.taken_prefix {κ : Type} [TracedSink κ] {first last : κ}
    (writes : WritesTo first last) : TracedSink.taken first <+: TracedSink.taken last := by
  induction writes with
  | still => exact List.prefix_refl _
  | @more middle last bytes reply _ call ih =>
    cases reply with
    | ok count => exact ih.trans (TracedSink.taken_write call ▸ List.prefix_append _ _)
    | error error => rwa [TracedSink.taken_write_error call]

/-- What a loop of writes leaves was led to by writes. -/
theorem WritesTo.push {sink middle last : κ} {bytes : Bytes} {pushed : Pushed}
    (front : WritesTo sink middle) (run : Sink.push middle bytes = .ok (pushed, last)) :
    WritesTo sink last := by
  fun_induction Sink.push middle bytes generalizing pushed last with
  | case1 => cases run; exact front
  | case2 => cases run
  | case3 middle bytes _ next call => cases run; exact front.more call
  | case4 => cases run
  | case5 middle bytes _ taken next call _ rest last inner ih =>
    cases run
    exact ih (front.more call) inner
  | case6 middle bytes _ error next call _ ih => exact ih (front.more call) run
  | case7 middle bytes _ error next call _ => cases run; exact front.more call

theorem of_write_stopped {stopped next : Stopped κ} {bytes : Bytes} {count : Nat}
    (call : write stopped bytes = .ok (.ok count, next)) :
    write stopped.device bytes = .ok (.ok count, next.device) := by
  rcases Stopped.of_call _ call with ⟨refused, _⟩ | called
  · cases refused
  · exact called

/-- A loop of writes to a stopped sink is the loop, or cut short on the way. -/
theorem push_stopped (stopped : Stopped κ) {bytes : Bytes} {pushed : Pushed} {last : κ}
    (run : push stopped.device bytes = .ok (pushed, last)) :
    ∃ answer state, push stopped bytes = .ok (answer, state) ∧ WritesTo state.device last ∧
      (answer = pushed ∧ state.device = last ∨ answer.stall = some (.failed Stopped.stop)) := by
  have writes := (WritesTo.still stopped.device).push run
  -- As with gathering, the two loops part at a final error only.
  fun_induction push stopped bytes generalizing pushed last with
  | case1 stopped =>
    rw [push, if_pos rfl] at run
    cases run
    exact ⟨_, stopped, rfl, writes, .inl ⟨rfl, rfl⟩⟩
  | case2 stopped bytes some trap call =>
    have called : write stopped.device bytes = .error trap := Stopped.of_call_trap _ call
    rw [push_eq_bind _ some, called] at run
    cases run
  | case3 stopped bytes some next call =>
    rw [push_of_refused some (of_write_stopped call)] at run
    cases run
    exact ⟨_, _, rfl, .still _, .inl ⟨rfl, rfl⟩⟩
  | case4 stopped bytes some count next call positive trap inner ih =>
    rw [push_of_part some positive (of_write_stopped call)] at run
    obtain ⟨⟨rest, _⟩, further, _⟩ := Checked.bind_eq_ok_iff.mp run
    obtain ⟨_, _, answer, _⟩ := ih further ((WritesTo.still _).push further)
    cases inner.symm.trans answer
  | case5 stopped bytes some count next call positive rest state inner ih =>
    rw [push_of_part some positive (of_write_stopped call)] at run
    obtain ⟨⟨whole, _⟩, further, run⟩ := Checked.bind_eq_ok_iff.mp run
    cases run
    obtain ⟨_, _, answer, leads, ends⟩ := ih further ((WritesTo.still _).push further)
    cases inner.symm.trans answer
    refine ⟨_, state, rfl, leads, ends.imp_left ?_⟩
    rintro ⟨rfl, same⟩
    exact ⟨rfl, same⟩
  | case6 stopped bytes some error next call kind ih =>
    rcases Stopped.of_call _ call with ⟨refused, _⟩ | called
    · cases refused
      exact absurd kind Stopped.stop.kind_ne
    · rw [push_of_interrupted some kind called] at run
      exact ih run ((WritesTo.still _).push run)
  | case7 stopped bytes some error next call final =>
    rcases Stopped.of_call _ call with ⟨refused, rfl⟩ | called
    · cases refused
      exact ⟨_, _, rfl, writes, .inr rfl⟩
    · rw [@push_of_failed _ _ _ _ _ some ⟨error, final⟩ called] at run
      cases run
      exact ⟨_, _, rfl, .still _, .inl ⟨rfl, rfl⟩⟩

theorem WritesTo.writeAll {sink middle last : κ} {bytes : Bytes} {reply : Except FinalError Unit}
    (front : WritesTo sink middle) (run : Sink.writeAll middle bytes = .ok (reply, last)) :
    WritesTo sink last := by
  obtain ⟨⟨pushed, _⟩, pushing, run⟩ := Checked.bind_eq_ok_iff.mp run
  cases run
  exact front.push pushing

/-- Writing everything to a stopped sink is the same, or cut short on the way. -/
theorem writeAll_stopped (stopped : Stopped κ) {bytes : Bytes} {reply : Except FinalError Unit}
    {last : κ} (run : writeAll stopped.device bytes = .ok (reply, last)) :
    ∃ answer state, writeAll stopped bytes = .ok (answer, state) ∧ WritesTo state.device last ∧
      (answer = reply ∧ state.device = last ∨ ∃ cause, answer = .error cause) := by
  obtain ⟨⟨pushed, _⟩, pushing, run⟩ := Checked.bind_eq_ok_iff.mp run
  cases run
  obtain ⟨answer, state, further, leads, ends⟩ := push_stopped stopped pushing
  rw [writeAll, further]
  refine ⟨_, state, rfl, leads, ends.imp ?_ fun cut => ⟨Stopped.stop, ?_⟩⟩
  · rintro ⟨rfl, same⟩
    exact ⟨rfl, same⟩
  · rw [Pushed.outcome, cut]

end Sink

/-! ### Stopped encodings -/

namespace Sealing

variable {ρ κ : Type}

/-- An encoding with both devices stopped, each after a number of calls of its own. -/
def stopped (sealing : Sealing ρ κ) (reads writes : Nat) : Sealing (Stopped ρ) (Stopped κ) :=
  ⟨⟨sealing.source, reads⟩, ⟨sealing.sink, writes⟩, sealing.scratch⟩

def unstopped (sealing : Sealing (Stopped ρ) (Stopped κ)) : Sealing ρ κ :=
  ⟨sealing.source.device, sealing.sink.device, sealing.scratch⟩

variable [Source ρ] [Sink κ]

/-- Reads and writes lead from the devices of one encoding to those of another. -/
structure Leads (first second : Sealing ρ κ) : Prop where
  reads : Source.ReadsTo first.source second.source
  writes : Sink.WritesTo first.sink second.sink

theorem Leads.still (sealing : Sealing ρ κ) : sealing.Leads sealing :=
  ⟨.still _, .still _⟩

theorem Leads.trans {first second third : Sealing ρ κ} (front : first.Leads second)
    (back : second.Leads third) : first.Leads third :=
  ⟨front.reads.trans back.reads, front.writes.trans back.writes⟩

/-- Sealing a chunk gathers its payload; either that comes short, or the frame is written. -/
theorem of_chunk {sealing next : Sealing ρ κ} {length : Nat} {reply : Except StreamError Unit}
    (run : sealing.chunk length = .ok (reply, next)) :
    ∃ gathered filled, Source.gather sealing.source length length = .ok (gathered, next.source) ∧
      sealing.scratch.fill headerLength gathered.bytes = .ok filled ∧
      ((∃ cause, gathered.outcome length .unfilledBuffer = .error cause ∧
          reply = .error (.source cause.toIo) ∧ next.sink = sealing.sink ∧ next.scratch = filled) ∨
        ∃ frame written, gathered.outcome length .unfilledBuffer = .ok () ∧
          filled.sealFrame length = .ok (frame, next.scratch) ∧
          Sink.writeAll sealing.sink frame = .ok (written, next.sink) ∧
          reply = written.mapError fun cause => .sink cause.toIo) := by
  obtain ⟨⟨gathered, source⟩, reading, run⟩ := Checked.bind_eq_ok_iff.mp run
  obtain ⟨filled, filling, run⟩ := Checked.bind_eq_ok_iff.mp run
  dsimp only at run filling
  split at run
  next cause failed =>
    cases run
    exact ⟨gathered, filled, reading, filling, .inl ⟨cause, failed, rfl, rfl, rfl⟩⟩
  next enough =>
    obtain ⟨⟨frame, scratch⟩, sealed, run⟩ := Checked.bind_eq_ok_iff.mp run
    obtain ⟨⟨written, sink⟩, writing, run⟩ := Checked.bind_eq_ok_iff.mp run
    cases run
    exact ⟨gathered, filled, reading, filling, .inr ⟨frame, written, enough, sealed, writing, rfl⟩⟩

theorem chunk_leads {sealing next : Sealing ρ κ} {length : Nat} {reply : Except StreamError Unit}
    (run : sealing.chunk length = .ok (reply, next)) : sealing.Leads next := by
  obtain ⟨gathered, filled, reading, _, ends⟩ := of_chunk run
  refine ⟨(Source.ReadsTo.still _).gather reading, ?_⟩
  rcases ends with ⟨_, _, _, same, _⟩ | ⟨_, _, _, _, writing, _⟩
  · exact same ▸ .still _
  · exact (Sink.WritesTo.still _).writeAll writing

theorem run_leads {sealing last : Sealing ρ κ} {size : Nat} {reply : Except StreamError Unit}
    (run : sealing.run size = .ok (reply, last)) : sealing.Leads last := by
  -- The induction is on the size; each chunk leaves a smaller one.
  induction size using Nat.strongRecOn generalizing sealing with
  | _ size ih =>
    rw [Sealing.run] at run
    split at run
    next =>
      cases run
      exact .still _
    next some =>
      have positive : 0 < min size payloadLength :=
        Nat.lt_min.mpr ⟨Nat.pos_of_ne_zero some, by decide⟩
      obtain ⟨⟨first, middle⟩, sealed, run⟩ := Checked.bind_eq_ok_iff.mp run
      have front := chunk_leads sealed
      cases first with
      | error error =>
        cases run
        exact front
      | ok _ => exact front.trans (ih (size - min size payloadLength) (by omega) run)

/-- Sealing a chunk with stopped devices is sealing it, or cut short on the way. -/
theorem chunk_stopped (sealing : Sealing (Stopped ρ) (Stopped κ)) {next : Sealing ρ κ} {length : Nat}
    {reply : Except StreamError Unit} (small : length ≤ payloadLength)
    (run : sealing.unstopped.chunk length = .ok (reply, next)) :
    ∃ answer state, sealing.chunk length = .ok (answer, state) ∧ state.unstopped.Leads next ∧
      (answer = reply ∧ state.unstopped = next ∨ ∃ error, answer = .error error) := by
  obtain ⟨source, sink, scratch⟩ := next
  have leads := chunk_leads run
  obtain ⟨gathered, filled, reading, filling, parts⟩ := of_chunk run
  obtain ⟨answer, state, further, reads, ends⟩ := Source.gather_stopped sealing.source reading
  have bound := Source.length_gather_le further
  rw [chunk, Source.readFull, further, Checked.ok_bind]
  dsimp only
  rcases ends with ⟨rfl, rfl⟩ | cut
  · -- Nothing was cut short before the frame is written, if it comes to that.
    have same : sealing.scratch.fill headerLength answer.bytes = .ok filled := filling
    rw [same, Checked.ok_bind]
    rcases parts with ⟨cause, failed, rfl, rfl, rfl⟩ | ⟨frame, written, enough, sealed, writing, rfl⟩
    · rw [failed]
      exact ⟨_, _, rfl, .still _, .inl ⟨rfl, rfl⟩⟩
    · obtain ⟨answer, sink, more, writes, ends⟩ := Sink.writeAll_stopped sealing.sink writing
      rw [enough]
      dsimp only
      rw [sealed, Checked.ok_bind]
      dsimp only
      rw [more, Checked.ok_bind]
      refine ⟨_, _, rfl, ⟨.still _, writes⟩, ends.imp ?_ ?_⟩
      · rintro ⟨rfl, rfl⟩
        exact ⟨rfl, rfl⟩
      · rintro ⟨cause, rfl⟩
        exact ⟨_, rfl⟩
  · have failed : answer.outcome length .unfilledBuffer = .error Stopped.stop := by
      rw [Gathered.outcome, cut]
    obtain ⟨filled, _, _, filling, _⟩ :=
      sealing.scratch.fill_payload answer.bytes (Nat.le_trans bound small)
    rw [filling, Checked.ok_bind, failed]
    exact ⟨_, _, rfl, ⟨reads, leads.writes⟩, .inr ⟨_, rfl⟩⟩

/-- An encoding with stopped devices is the encoding, or cut short on the way. -/
theorem run_stopped (sealing : Sealing (Stopped ρ) (Stopped κ)) {last : Sealing ρ κ} {size : Nat}
    {reply : Except StreamError Unit} (run : sealing.unstopped.run size = .ok (reply, last)) :
    ∃ answer state, sealing.run size = .ok (answer, state) ∧ state.unstopped.Leads last ∧
      (answer = reply ∧ state.unstopped = last ∨ ∃ error, answer = .error error) := by
  -- The same induction, for both at once, up to the chunk in which the one is cut short.
  induction size using Nat.strongRecOn generalizing sealing with
  | _ size ih =>
    rw [Sealing.run] at run ⊢
    split at run
    next none =>
      cases run
      rw [if_pos none]
      exact ⟨_, sealing, rfl, .still _, .inl ⟨rfl, rfl⟩⟩
    next some =>
      have positive : 0 < min size payloadLength :=
        Nat.lt_min.mpr ⟨Nat.pos_of_ne_zero some, by decide⟩
      obtain ⟨⟨first, middle⟩, sealed, run⟩ := Checked.bind_eq_ok_iff.mp run
      obtain ⟨answer, state, further, leads, ends⟩ :=
        sealing.chunk_stopped (Nat.min_le_right _ _) sealed
      rw [if_neg some]
      dsimp only
      rw [further]
      rcases ends with ⟨rfl, rfl⟩ | ⟨error, rfl⟩
      · cases answer with
        | error error =>
          cases run
          exact ⟨_, state, rfl, .still _, .inl ⟨rfl, rfl⟩⟩
        | ok _ => exact ih (size - min size payloadLength) (by omega) state run
      · -- Cut short, the one run ends, and the other goes on.
        refine ⟨_, state, rfl, leads.trans ?_, .inr ⟨error, rfl⟩⟩
        cases first with
        | error error =>
          cases run
          exact .still _
        | ok _ => exact run_leads run

end Sealing

end SealedStream
