import SealedStream.Device.Span
import SealedStream.Proofs.Pushing
import SealedStream.Proofs.Traces

/-!
# Loops over watched devices

The loops that read until there is enough, or write until nothing is left, come back whatever the
devices do. Reading keeps all that was given, even when it fails. Writing stores a front part of the
bytes, which is all of them exactly if it succeeds. Reading from a span of a store touches nothing.
-/
namespace SealedStream

variable {σ ρ : Type}

section Writing

variable [TracedStore σ]

/-- What is in a store and on its record after bytes have been stored from an offset on. -/
structure Stored (before after : σ) (offset : Nat) (bytes : Bytes) : Prop where
  trace : TracedStore.trace after = TracedStore.trace before ++ Entry.row offset bytes
  contents : LawfulStore.contents after =
    (LawfulStore.contents before).replay (Entry.row offset bytes)

theorem Stored.nothing {before after : σ}
    (trace : TracedStore.trace after = TracedStore.trace before)
    (contents : LawfulStore.contents after = LawfulStore.contents before) (offset : Nat) :
    Stored before after offset [] :=
  ⟨by rw [trace, Entry.row_nil, List.append_nil], by rw [contents]; rfl⟩

theorem Stored.trans {first second third : σ} {offset : Nat} {front back : Bytes}
    (stored : Stored first second offset front)
    (further : Stored second third (offset + front.length) back) :
    Stored first third offset (front ++ back) where
  trace := by rw [further.trace, stored.trace, Entry.row_append, List.append_assoc]
  contents := by rw [further.contents, stored.contents, Entry.row_append, Memory.replay_append]

end Writing

/-- A loop of reads comes back, and keeps all that it was given. -/
theorem TracedSource.gather_answers [TracedSource ρ] (source : ρ) (need room : Nat) :
    ∃ gathered last, Source.gather source need room = .ok (gathered, last) ∧
      given last = given source ++ gathered.bytes := by
  fun_induction Source.gather source need room with
  | case1 source => exact ⟨_, _, rfl, (List.append_nil _).symm⟩
  | case2 source need room _ trap call =>
    obtain ⟨_, _, answer⟩ := TotalSource.read_answers source room
    cases call.symm.trans answer
  | case3 source need room _ next call => exact ⟨_, _, rfl, given_read call⟩
  | case4 source need room _ bytes next call _ trap inner ih =>
    obtain ⟨_, _, run, _⟩ := ih
    cases inner.symm.trans run
  | case5 source need room _ bytes next call _ rest last inner ih =>
    obtain ⟨_, _, run, grown⟩ := ih
    cases inner.symm.trans run
    refine ⟨_, _, rfl, ?_⟩
    rw [grown, given_read call, List.append_assoc]
  | case6 source need room _ error next call _ ih =>
    -- An interrupted read has given nothing, so the loop starts again.
    obtain ⟨gathered, last, run, grown⟩ := ih
    exact ⟨gathered, last, run, by rw [grown, given_read_error call]⟩
  | case7 source need room _ error next call _ =>
    exact ⟨_, _, rfl, by rw [given_read_error call, List.append_nil]⟩

namespace Cursor

theorem write_answers [TotalStore σ] (cursor : Cursor σ) (bytes : Bytes)
    (fits : cursor.offset + bytes.length < offsetLimit) :
    ∃ reply next, Sink.write cursor bytes = .ok (reply, next) := by
  obtain ⟨reply, store, call⟩ := TotalStore.writeAt_answers cursor.store cursor.offset bytes fits
  have run : Sink.write cursor bytes = cursor.write bytes := rfl
  rw [run, Cursor.write, call, Checked.ok_bind]
  cases reply with
  | ok taken =>
    have bound := WritableStore.taken_le_length call
    dsimp only
    rw [Checked.add_eq_ok (by omega : cursor.offset + taken < offsetLimit)]
    exact ⟨_, _, rfl⟩
  | error error => exact ⟨_, _, rfl⟩

/-- A write that fails leaves the cursor where it is. -/
theorem offset_of_write [WritableStore σ] {cursor next : Cursor σ} {bytes : Bytes}
    {reply : Except IoError Nat} (call : Sink.write cursor bytes = .ok (reply, next)) :
    next.offset = cursor.offset + reply.toOption.getD 0 := by
  obtain ⟨⟨answer, store⟩, _, rest⟩ := Checked.bind_eq_ok_iff.mp call
  cases answer with
  | error error =>
    cases rest
    rfl
  | ok count =>
    obtain ⟨offset, place, rest⟩ := Checked.bind_eq_ok_iff.mp rest
    obtain ⟨_, rfl⟩ := Checked.add_eq_ok_iff.mp place
    cases rest
    rfl

variable [TracedStore σ]

/-- A write moves the cursor behind what it has stored. -/
theorem stored_of_write {cursor next : Cursor σ} {bytes : Bytes} {taken : Nat} (some : bytes ≠ [])
    (call : Sink.write cursor bytes = .ok (.ok taken, next)) :
    next.offset = cursor.offset + taken ∧
      Stored cursor.store next.store cursor.offset (bytes.take taken) := by
  have inner := writeAt_of_write call
  exact ⟨offset_of_write call, TracedStore.trace_writeAt some inner,
    LawfulStore.contents_writeAt some inner⟩

/-- A write that fails stores nothing and leaves the cursor where it is. -/
theorem stored_of_write_error {cursor next : Cursor σ} {bytes : Bytes} {error : IoError}
    (call : Sink.write cursor bytes = .ok (.error error, next)) :
    next.offset = cursor.offset ∧ Stored cursor.store next.store cursor.offset [] := by
  have inner := writeAt_of_write call
  exact ⟨offset_of_write call, .nothing (TracedStore.trace_writeAt_error inner)
    (LawfulStore.contents_writeAt_error inner) _⟩

/-- Within the offset limit, each write moves the cursor behind what it has stored. -/
theorem tracks : Sink.Tracks
    (fun (cursor : Cursor σ) room => cursor.offset + room < offsetLimit)
    (fun first last bytes => last.offset = first.offset + bytes.length ∧
      Stored first.store last.store first.offset bytes) where
  still _ := ⟨rfl, .nothing rfl rfl _⟩
  trans := by
    rintro first second third front back ⟨place, stored⟩ ⟨further_place, further⟩
    rw [place] at further_place further
    exact ⟨by rw [further_place, List.length_append, Nat.add_assoc], stored.trans further⟩
  answers fits _ short := write_answers _ _ (by omega)
  took {cursor next room bytes count} fits some short call := by
    obtain ⟨place, stored⟩ := stored_of_write some call
    have bound := Sink.taken_le_length call
    exact ⟨⟨by rw [place, List.length_take_of_le bound], stored⟩, by omega⟩
  failed {cursor next room bytes error} fits _ _ call := by
    obtain ⟨place, stored⟩ := stored_of_write_error call
    exact ⟨⟨place, stored⟩, by rw [place]; exact fits⟩

/-- A loop of writes comes back and has stored a front part, which is all of it exactly if nothing
stalled the loop. -/
theorem push_answers (cursor : Cursor σ) (bytes : Bytes)
    (fits : cursor.offset + bytes.length < offsetLimit) :
    ∃ pushed last, Sink.push cursor bytes = .ok (pushed, last) ∧
      last.offset = cursor.offset + pushed.taken ∧
      Stored cursor.store last.store cursor.offset (bytes.take pushed.taken) ∧
      (pushed.stall = none → pushed.taken = bytes.length) ∧
      (pushed.stall ≠ none → pushed.taken < bytes.length) := by
  obtain ⟨pushed, last, run, ⟨place, stored⟩, _, ends⟩ := tracks.push cursor fits (Nat.le_refl _)
  have bound := Sink.taken_push_le run
  rw [List.length_take_of_le bound] at place
  exact ⟨pushed, last, run, place, stored, ends⟩

end Cursor

namespace TracedSink

variable {κ : Type} [TracedSink κ]

/-- What a sink has grows by what its writes take. -/
theorem tracks : Sink.Tracks (fun (_ : κ) _ => True)
    (fun first last bytes => taken last = taken first ++ bytes) where
  still _ := (List.append_nil _).symm
  trans moved further := by rw [further, moved, List.append_assoc]
  answers _ _ _ := write_answers _ _
  took _ _ _ call := ⟨taken_write call, trivial⟩
  failed _ _ _ call := ⟨by rw [taken_write_error call, List.append_nil], trivial⟩

/-- A loop of writes comes back, and the sink then has a front part of the bytes more. -/
theorem push_answers (sink : κ) (bytes : Bytes) :
    ∃ pushed last, Sink.push sink bytes = .ok (pushed, last) ∧
      taken last = taken sink ++ bytes.take pushed.taken ∧
      (pushed.stall = none → pushed.taken = bytes.length) ∧
      (pushed.stall ≠ none → pushed.taken < bytes.length) := by
  obtain ⟨pushed, last, run, grown, _, ends⟩ :=
    tracks.push sink trivial (Nat.le_refl bytes.length)
  exact ⟨pushed, last, run, grown, ends⟩

end TracedSink

/-- What writing all of some bytes did, by its reply. -/
inductive Written [TracedStore σ] (before after : σ) (offset : Nat) (bytes : Bytes) :
    Except FinalError Unit → Prop
  | all (stored : Stored before after offset bytes) : Written before after offset bytes (.ok ())
  | part {cause : FinalError} (taken : Nat) (short : taken < bytes.length)
      (stored : Stored before after offset (bytes.take taken)) :
      Written before after offset bytes (.error cause)

section Writing

variable [TracedStore σ]

theorem Cursor.outcome_written (cursor : Cursor σ) (bytes : Bytes)
    (fits : cursor.offset + bytes.length < offsetLimit) (refusal : FinalError) :
    ∃ pushed last, Sink.push cursor bytes = .ok (pushed, last) ∧
      Written cursor.store last.store cursor.offset bytes (pushed.outcome refusal) ∧
      (pushed.outcome refusal = .ok () → last.offset = cursor.offset + bytes.length) := by
  obtain ⟨pushed, last, run, place, stored, all, short⟩ := cursor.push_answers bytes fits
  refine ⟨pushed, last, run, ?_, ?_⟩
  · cases outcome : pushed.outcome refusal with
    | ok _ =>
      rw [all (Pushed.stall_eq_none_iff.mp outcome), List.take_length] at stored
      exact .all stored
    | error cause =>
      refine .part pushed.taken (short fun none => ?_) stored
      rw [Pushed.stall_eq_none_iff.mpr none] at outcome
      cases outcome
  · intro outcome
    rw [place, all (Pushed.stall_eq_none_iff.mp outcome)]

/-- Writing all bytes to a cursor comes back. -/
theorem Cursor.writeAll_answers (cursor : Cursor σ) (bytes : Bytes)
    (fits : cursor.offset + bytes.length < offsetLimit) :
    ∃ reply last, Sink.writeAll cursor bytes = .ok (reply, last) ∧
      Written cursor.store last.store cursor.offset bytes reply ∧
      (reply = .ok () → last.offset = cursor.offset + bytes.length) := by
  obtain ⟨pushed, last, run, written, place⟩ := cursor.outcome_written bytes fits .unwrittenBuffer
  refine ⟨_, last, ?_, written, place⟩
  rw [Sink.writeAll, run]
  rfl

/-- Storing all bytes at an offset comes back. -/
theorem WritableStore.writeAllAt_answers (store : σ) (offset : Nat) (bytes : Bytes)
    (fits : offset + bytes.length < offsetLimit) :
    ∃ reply last, WritableStore.writeAllAt store offset bytes = .ok (reply, last) ∧
      Written store last offset bytes reply := by
  obtain ⟨pushed, last, run, written, _⟩ :=
    Cursor.outcome_written ⟨store, offset⟩ bytes fits .writeZero
  refine ⟨_, last.store, ?_, written⟩
  rw [WritableStore.writeAllAt, run]
  rfl

end Writing

namespace Span

theorem remaining_eq_ok {span : Span σ} (ordered : span.position ≤ span.stop) :
    span.remaining = .ok (span.stop - span.position) :=
  Checked.sub_eq_ok ordered

variable [TracedStore σ]

/-- What a store holds between the two ends of a span. -/
def bytes (span : Span σ) : Bytes :=
  ((LawfulStore.contents span.store).bytes.drop span.position).take (span.stop - span.position)

/-- A span lies in order below the offset limit. -/
structure Sound (span : Span σ) : Prop where
  ordered : span.position ≤ span.stop
  fits : span.stop < offsetLimit

/-- A state of the store with the same bytes in it and nothing more on its record. -/
structure Untouched (before after : σ) : Prop where
  contents : LawfulStore.contents after = LawfulStore.contents before
  trace : TracedStore.trace after = TracedStore.trace before

theorem Untouched.trans {first second third : σ} (front : Untouched first second)
    (back : Untouched second third) : Untouched first third :=
  ⟨back.contents.trans front.contents, back.trace.trans front.trace⟩

theorem read_answers {span : Span σ} (sound : span.Sound) (room : Nat) :
    ∃ reply next, Source.read span room = .ok (reply, next) := by
  have run : Source.read span room = span.read room := rfl
  rw [run, Span.read, remaining_eq_ok sound.ordered, Checked.ok_bind]
  dsimp only
  by_cases none : min room (span.stop - span.position) = 0
  · rw [if_pos none]
    exact ⟨_, _, rfl⟩
  · obtain ⟨reply, next, call⟩ :=
      LawfulStore.readAt_answers span.store span.position (min room (span.stop - span.position))
    rw [if_neg none, call, Checked.ok_bind]
    cases reply with
    | error error => exact ⟨_, _, rfl⟩
    | ok part =>
      have short := ReadableStore.length_le_room call
      have ordered := sound.ordered
      have fits := sound.fits
      dsimp only
      rw [Checked.add_eq_ok (by omega : span.position + part.length < offsetLimit)]
      exact ⟨_, _, rfl⟩

/-- A read takes a front part of the span and leaves the rest of it. -/
theorem bytes_of_read {span next : Span σ} {room : Nat} {part : Bytes} (sound : span.Sound)
    (call : Source.read span room = .ok (.ok part, next)) :
    next.Sound ∧ span.bytes = part ++ next.bytes ∧ Untouched span.store next.store := by
  obtain ⟨store, position, stop⟩ := span
  obtain ⟨ordered, fits⟩ := sound
  dsimp only at ordered fits
  have run : Span.read (⟨store, position, stop⟩ : Span σ) room = .ok (.ok part, next) := call
  rw [Span.read, remaining_eq_ok ordered, Checked.ok_bind] at run
  dsimp only at run
  by_cases none : min room (stop - position) = 0
  · -- Without room, or at its end, a span does not call its store.
    rw [if_pos none] at run
    cases run
    exact ⟨⟨ordered, fits⟩, rfl, rfl, rfl⟩
  · rw [if_neg none] at run
    obtain ⟨⟨reply, after⟩, inner, run⟩ := Checked.bind_eq_ok_iff.mp run
    cases reply with
    | error error => cases run
    | ok given =>
      obtain ⟨_, place, run⟩ := Checked.bind_eq_ok_iff.mp run
      obtain ⟨_, rfl⟩ := Checked.add_eq_ok_iff.mp place
      cases run
      have short := ReadableStore.length_le_room inner
      have contents := LawfulStore.contents_readAt inner
      obtain ⟨rest, split⟩ := LawfulStore.readAt_prefix inner
      refine ⟨⟨by dsimp only; omega, fits⟩, ?_, contents, TracedStore.trace_readAt inner⟩
      rw [bytes, bytes]
      dsimp only
      rw [contents, ← List.drop_drop, ← split, List.drop_left, List.take_append,
        List.take_of_length_le (by omega), Nat.sub_sub]

theorem bytes_of_read_error {span next : Span σ} {room : Nat} {error : IoError}
    (sound : span.Sound) (call : Source.read span room = .ok (.error error, next)) :
    next.Sound ∧ next.bytes = span.bytes ∧ Untouched span.store next.store := by
  have run : span.read room = .ok (.error error, next) := call
  rw [Span.read, remaining_eq_ok sound.ordered, Checked.ok_bind] at run
  dsimp only at run
  by_cases none : min room (span.stop - span.position) = 0
  · rw [if_pos none] at run
    cases run
  · rw [if_neg none] at run
    obtain ⟨⟨reply, after⟩, inner, run⟩ := Checked.bind_eq_ok_iff.mp run
    cases reply with
    | error cause =>
      cases run
      have contents := LawfulStore.contents_readAt inner
      refine ⟨⟨sound.ordered, sound.fits⟩, ?_, contents, TracedStore.trace_readAt inner⟩
      rw [bytes, bytes, contents]
    | ok given =>
      obtain ⟨_, _, run⟩ := Checked.bind_eq_ok_iff.mp run
      cases run

/-- Reading from a span comes back with a front part of its bytes, and touches nothing. -/
theorem gather_answers {span : Span σ} (sound : span.Sound) (need room : Nat) :
    ∃ gathered last, Source.gather span need room = .ok (gathered, last) ∧
      gathered.bytes <+: span.bytes ∧ Untouched span.store last.store := by
  fun_induction Source.gather span need room with
  | case1 span => exact ⟨_, _, rfl, List.nil_prefix, rfl, rfl⟩
  | case2 span need room _ trap call =>
    obtain ⟨_, _, answer⟩ := read_answers sound room
    cases call.symm.trans answer
  | case3 span need room _ next call =>
    obtain ⟨_, _, same⟩ := bytes_of_read sound call
    exact ⟨_, _, rfl, List.nil_prefix, same⟩
  | case4 span need room _ part next call _ trap inner ih =>
    obtain ⟨_, _, run, _⟩ := ih (bytes_of_read sound call).1
    cases inner.symm.trans run
  | case5 span need room _ part next call _ rest last inner ih =>
    obtain ⟨after, split, same⟩ := bytes_of_read sound call
    obtain ⟨_, _, run, front, still⟩ := ih after
    cases inner.symm.trans run
    refine ⟨_, _, rfl, ?_, same.trans still⟩
    rw [split]
    exact (List.prefix_append_right_inj part).mpr front
  | case6 span need room _ error next call _ ih =>
    obtain ⟨after, equal, same⟩ := bytes_of_read_error sound call
    obtain ⟨gathered, last, run, front, still⟩ := ih after
    exact ⟨gathered, last, run, equal ▸ front, same.trans still⟩
  | case7 span need room _ error next call _ =>
    obtain ⟨_, _, same⟩ := bytes_of_read_error sound call
    exact ⟨_, _, rfl, List.nil_prefix, same⟩

end Span

end SealedStream
