import SealedStream.Device.Sink

/-!
# Loops of writes

A loop that offers what is left of some bytes ends in one of three ways, and what it did in between is
what its writes did one after the other. `Tracks` says of a single write what it takes and how much
may still be offered behind it; `Tracks.push` says the same of the whole loop. `Perfect` adds that no
write stalls, and `Perfect.push` that the loop then gets rid of everything.
-/
namespace SealedStream

theorem Pushed.stall_eq_none_iff {pushed : Pushed} {refusal : FinalError} :
    pushed.outcome refusal = .ok () ↔ pushed.stall = none := by
  unfold outcome
  split <;> simp [*]

namespace Sink

variable {κ : Type} [Sink κ]

/-- One turn of the loop of writes. -/
theorem push_eq_bind (sink : κ) {bytes : Bytes} (some : bytes ≠ []) :
    push sink bytes = write sink bytes >>= fun (reply, next) =>
      match reply with
      | .ok taken =>
        if taken = 0 then .ok (⟨0, Option.some .refused⟩, next)
        else push next (bytes.drop taken) >>= fun (rest, last) =>
          .ok (⟨taken + rest.taken, rest.stall⟩, last)
      | .error error =>
        if final : error.kind = .interrupted then push next bytes
        else .ok (⟨0, Option.some (.failed ⟨error, final⟩)⟩, next) := by
  rw [push, if_neg some]
  split
  next call => rw [call]; rfl
  next taken next call =>
    rw [call, Checked.ok_bind]
    dsimp only
    split
    next => rfl
    next => cases push next (bytes.drop taken) <;> rfl
  next call => rw [call]; rfl

section

variable {sink next : κ} {bytes : Bytes} (some : bytes ≠ [])

include some

theorem push_of_refused (call : write sink bytes = .ok (.ok 0, next)) :
    push sink bytes = .ok (⟨0, Option.some .refused⟩, next) := by
  rw [push_eq_bind _ some, call, Checked.ok_bind]
  exact if_pos rfl

theorem push_of_part {count : Nat} (positive : count ≠ 0)
    (call : write sink bytes = .ok (.ok count, next)) :
    push sink bytes = push next (bytes.drop count) >>= fun (rest, last) =>
      .ok (⟨count + rest.taken, rest.stall⟩, last) := by
  rw [push_eq_bind _ some, call, Checked.ok_bind]
  exact if_neg positive

theorem push_of_interrupted {error : IoError} (kind : error.kind = .interrupted)
    (call : write sink bytes = .ok (.error error, next)) : push sink bytes = push next bytes := by
  rw [push_eq_bind _ some, call, Checked.ok_bind]
  exact dif_pos kind

theorem push_of_failed {cause : FinalError}
    (call : write sink bytes = .ok (.error cause.toIo, next)) :
    push sink bytes = .ok (⟨0, Option.some (.failed cause)⟩, next) := by
  rw [push_eq_bind _ some, call, Checked.ok_bind]
  exact dif_neg cause.kind_ne

end

/-- What single writes do: `Able` holds of a sink and the number of bytes that may be offered to it,
`Moved` of two states of a sink and the bytes taken between them. -/
structure Tracks (Able : κ → Nat → Prop) (Moved : κ → κ → Bytes → Prop) : Prop where
  still (sink : κ) : Moved sink sink []
  trans {first second third : κ} {front back : Bytes} :
    Moved first second front → Moved second third back → Moved first third (front ++ back)
  answers {sink : κ} {room : Nat} {bytes : Bytes} : Able sink room → bytes ≠ [] →
    bytes.length ≤ room → ∃ reply next, write sink bytes = .ok (reply, next)
  took {sink next : κ} {room : Nat} {bytes : Bytes} {count : Nat} : Able sink room → bytes ≠ [] →
    bytes.length ≤ room → write sink bytes = .ok (.ok count, next) →
      Moved sink next (bytes.take count) ∧ Able next (room - count)
  failed {sink next : κ} {room : Nat} {bytes : Bytes} {error : IoError} : Able sink room →
    bytes ≠ [] → bytes.length ≤ room → write sink bytes = .ok (.error error, next) →
      Moved sink next [] ∧ Able next room

/-- No write fails for good or takes nothing. -/
structure Perfect (Able : κ → Nat → Prop) (Moved : κ → κ → Bytes → Prop) : Prop
    extends Tracks Able Moved where
  takes {sink next : κ} {room : Nat} {bytes : Bytes} {count : Nat} : Able sink room → bytes ≠ [] →
    bytes.length ≤ room → write sink bytes = .ok (.ok count, next) → 0 < count
  retries {sink next : κ} {room : Nat} {bytes : Bytes} {error : IoError} : Able sink room →
    bytes ≠ [] → bytes.length ≤ room → write sink bytes = .ok (.error error, next) →
      error.kind = .interrupted

variable {Able : κ → Nat → Prop} {Moved : κ → κ → Bytes → Prop}

/-- A loop of writes comes back. It has taken a front part of the bytes, which is all of them exactly
if nothing stalled it. -/
theorem Tracks.push (tracks : Tracks Able Moved) (sink : κ) {room : Nat} {bytes : Bytes}
    (able : Able sink room) (fits : bytes.length ≤ room) :
    ∃ pushed last, Sink.push sink bytes = .ok (pushed, last) ∧
      Moved sink last (bytes.take pushed.taken) ∧ Able last (room - pushed.taken) ∧
      (pushed.stall = none → pushed.taken = bytes.length) ∧
      (pushed.stall ≠ none → pushed.taken < bytes.length) := by
  -- One case for each way through the loop: it ends at once, traps, stalls, or goes on with a rest.
  fun_induction Sink.push sink bytes generalizing room with
  | case1 sink =>
    exact ⟨_, _, rfl, tracks.still sink, able, fun _ => rfl, fun stalled => absurd rfl stalled⟩
  | case2 sink bytes some trap call =>
    obtain ⟨_, _, answer⟩ := tracks.answers able some fits
    cases call.symm.trans answer
  | case3 sink bytes some next call =>
    obtain ⟨moved, after⟩ := tracks.took able some fits call
    exact ⟨_, _, rfl, moved, after, fun none => (by cases none),
      fun _ => List.length_pos_iff.mpr some⟩
  | case4 sink bytes some count next call _ trap inner ih =>
    have less : (bytes.drop count).length ≤ room - count := by
      rw [List.length_drop]
      omega
    obtain ⟨_, _, run, _⟩ := ih (tracks.took able some fits call).2 less
    cases inner.symm.trans run
  | case5 sink bytes some count next call _ rest last inner ih =>
    obtain ⟨moved, after⟩ := tracks.took able some fits call
    have less : (bytes.drop count).length ≤ room - count := by
      rw [List.length_drop]
      omega
    obtain ⟨_, _, run, further, final, all, short⟩ := ih after less
    cases inner.symm.trans run
    have bound := taken_le_length call
    rw [List.length_drop] at all short
    refine ⟨_, _, rfl, ?_, ?_, fun none => ?_, fun stalled => ?_⟩
    · rw [List.take_add]
      exact tracks.trans moved further
    · rw [← Nat.sub_sub]
      exact final
    · have := all none
      dsimp only
      omega
    · have := short stalled
      dsimp only
      omega
  | case6 sink bytes some error next call _ ih =>
    -- An interrupted write has taken nothing, so the loop starts again.
    obtain ⟨moved, after⟩ := tracks.failed able some fits call
    obtain ⟨pushed, last, run, further, ends⟩ := ih after fits
    exact ⟨pushed, last, run, tracks.trans moved further, ends⟩
  | case7 sink bytes some error next call _ =>
    obtain ⟨moved, after⟩ := tracks.failed able some fits call
    exact ⟨_, _, rfl, moved, after, fun none => (by cases none),
      fun _ => List.length_pos_iff.mpr some⟩

/-- Nothing stalls such a loop. -/
theorem Perfect.stall_eq_none (perfect : Perfect Able Moved) {sink last : κ} {room : Nat}
    {bytes : Bytes} {pushed : Pushed} (able : Able sink room) (fits : bytes.length ≤ room)
    (run : Sink.push sink bytes = .ok (pushed, last)) : pushed.stall = none := by
  fun_induction Sink.push sink bytes generalizing room pushed last with
  | case1 => cases run; rfl
  | case2 => cases run
  | case3 sink bytes some next call =>
    exact absurd (perfect.takes able some fits call) (Nat.lt_irrefl 0)
  | case4 => cases run
  | case5 sink bytes some count next call _ rest middle inner ih =>
    cases run
    have less : (bytes.drop count).length ≤ room - count := by
      rw [List.length_drop]
      omega
    show rest.stall = none
    exact ih (perfect.took able some fits call).2 less inner
  | case6 sink bytes some error next call _ ih =>
    exact ih (perfect.failed able some fits call).2 fits run
  | case7 sink bytes some error next call final =>
    exact absurd (perfect.retries able some fits call) final

/-- Such a loop gets rid of everything. -/
theorem Perfect.push (perfect : Perfect Able Moved) {sink : κ} {room : Nat} {bytes : Bytes}
    (able : Able sink room) (fits : bytes.length ≤ room) :
    ∃ last, Sink.push sink bytes = .ok (⟨bytes.length, none⟩, last) ∧ Moved sink last bytes ∧
      Able last (room - bytes.length) := by
  obtain ⟨⟨taken, stall⟩, last, run, moved, after, all, _⟩ := perfect.toTracks.push sink able fits
  obtain rfl : stall = none := perfect.stall_eq_none able fits run
  obtain rfl : taken = bytes.length := all rfl
  rw [List.take_length] at moved
  exact ⟨last, run, moved, after⟩

theorem Perfect.writeAll (perfect : Perfect Able Moved) {sink : κ} {room : Nat} {bytes : Bytes}
    (able : Able sink room) (fits : bytes.length ≤ room) :
    ∃ last, Sink.writeAll sink bytes = .ok (.ok (), last) ∧ Moved sink last bytes ∧
      Able last (room - bytes.length) := by
  obtain ⟨last, run, moved, after⟩ := perfect.push able fits
  refine ⟨last, ?_, moved, after⟩
  rw [Sink.writeAll, run]
  rfl

end Sink

end SealedStream
