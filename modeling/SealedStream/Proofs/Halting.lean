import SealedStream.Proofs.Returning
import SealedStream.Proofs.VerifiedRelease

/-!
# Reading up to the first error and beyond

`Source.Halts` is the contract of a reader that keeps an account of what it has handed out until a
read fails, and from then on repeats what it remembers of the error (`Source.Silent`). It says how any
row of reads goes (`Source.Halts.readEach`) and, of a reader that comes back from every read, that it
is quiescent after its first error (`Source.Halts.quiescent`). Skipping meets it
(`Source.Halts.skip`), and so does passing on the reads of another reader (`Source.Halts.wrap`).
-/
namespace SealedStream

namespace Source

/-- The errors among replies to reads. -/
def failures (replies : List (Except IoError Bytes)) : List IoError :=
  replies.filterMap fun
    | .error error => some error
    | .ok _ => none

theorem failures_of_ok {replies : List (Except IoError Bytes)}
    (all : ∀ reply ∈ replies, ∃ part, reply = .ok part) : failures replies = [] := by
  apply List.filterMap_eq_nil_iff.mpr
  intro reply member
  obtain ⟨part, rfl⟩ := all reply member
  rfl

theorem failures_concat_ok (replies : List (Except IoError Bytes)) (part : Bytes) :
    failures (replies ++ [.ok part]) = failures replies := by
  simp [failures]

theorem failures_concat_error (replies : List (Except IoError Bytes)) (error : IoError) :
    failures (replies ++ [.error error]) = failures replies ++ [error] := by
  simp [failures]

/-- A part that is among the parts handed out was a reply. -/
theorem ok_mem_of_map {replies : List (Except IoError Bytes)} {part : Bytes}
    (member : some part ∈ replies.map Except.toOption) : .ok part ∈ replies := by
  obtain ⟨reply, member, same⟩ := List.mem_map.mp member
  cases reply with
  | error error => cases same
  | ok _ =>
    cases same
    exact member

theorem delivered_concat (replies : List (Except IoError Bytes)) (reply : Except IoError Bytes) :
    delivered (replies ++ [reply]) = delivered replies ++ reply.toOption.getD [] := by
  simp [delivered]

variable {ρ : Type} [Source ρ]

/-- Reads lead from one state of a source to another. -/
inductive ReadsTo : ρ → ρ → Prop
  | still (source : ρ) : ReadsTo source source
  | more {source middle last : ρ} {room : Nat} {reply : Except IoError Bytes}
      (front : ReadsTo source middle) (call : read middle room = .ok (reply, last)) :
      ReadsTo source last

/-- The source comes to a read that reports the error. -/
def Reports (source : ρ) (error : IoError) : Prop :=
  ∃ state room next, ReadsTo source state ∧ read state room = .ok (.error error, next)

/-- What a gathering leaves was led to by reads. -/
theorem ReadsTo.gather {source middle last : ρ} {need room : Nat} {gathered : Gathered}
    (front : ReadsTo source middle)
    (run : Source.gather middle need room = .ok (gathered, last)) : ReadsTo source last := by
  have keeps : ∀ state room reply next, ReadsTo source state →
      Source.read state room = .ok (reply, next) → ReadsTo source next :=
    fun _ _ _ _ before call => before.more call
  exact gather_keeps keeps front run

/-- The failure of a gathering was reported by a read. -/
theorem ReadsTo.reports_of_gather {source middle last : ρ} {need room : Nat} {gathered : Gathered}
    {cause : FinalError} (front : ReadsTo source middle)
    (run : Source.gather middle need room = .ok (gathered, last))
    (failed : gathered.failure = some cause) : Reports source cause.toIo := by
  fun_induction Source.gather middle need room generalizing gathered last with
  | case1 => cases run; cases failed
  | case2 => cases run
  | case3 => cases run; cases failed
  | case4 => cases run
  | case5 middle need room _ bytes next call _ rest last inner ih =>
    cases run
    exact ih (front.more call) inner failed
  | case6 middle need room _ error next call _ ih => exact ih (front.more call) run failed
  | case7 middle need room _ error next call _ =>
    cases run
    cases failed
    exact ⟨middle, room, next, front, call⟩

/-- Every read comes back, from this state of the source on. -/
def Responds (source : ρ) : Prop :=
  ∃ Inv : ρ → Prop, Inv source ∧ Answers Inv

theorem responds_of_total {ρ : Type} [TotalSource ρ] (source : ρ) : Responds source :=
  ⟨_, trivial, answers_of_total⟩

/-- Every read brings that error and leaves the reader as it is. -/
def Silent (reader : ρ) (error : IoError) : Prop :=
  ∀ room, read reader room = .ok (.error error, reader)

theorem Silent.readEach {reader : ρ} {error : IoError} (silent : Silent reader error)
    (rooms : List Nat) :
    Source.readEach reader rooms = .ok (.replicate rooms.length (.error error), reader) := by
  induction rooms with
  | nil => rfl
  | cons room rooms ih =>
    rw [Source.readEach, silent room, Checked.ok_bind]
    dsimp only
    rw [ih]
    rfl

/-- A reader with an account of what it has handed out. It is `Open` until its first error, and then
`Ended` by it; from there on it repeats what is remembered of the error. -/
structure Halts (Open : Bytes → ρ → Prop) (Ended : Bytes → DecodeError → ρ → Prop) : Prop where
  read {delivered : Bytes} {reader next : ρ} {room : Nat} {reply : Except IoError Bytes} :
    Open delivered reader → Source.read reader room = .ok (reply, next) →
      (∃ part, reply = .ok part ∧ Open (delivered ++ part) next) ∨
        ∃ error, reply = .error error.toIo ∧ Ended delivered error next
  silent {delivered : Bytes} {error : DecodeError} {reader : ρ} :
    Ended delivered error reader → Silent reader (Sticky.ofError error).toIo

namespace Halts

variable {Open : Bytes → ρ → Prop} {Ended : Bytes → DecodeError → ρ → Prop}
  (halts : Halts Open Ended) {delivered : Bytes} {reader last : ρ}

include halts

/-- In a row of reads all bring bytes, or some first one brings an error and the others repeat it. -/
theorem readEach {rooms : List Nat} {replies : List (Except IoError Bytes)}
    (start : Open delivered reader) (run : Source.readEach reader rooms = .ok (replies, last)) :
    ((∀ reply ∈ replies, ∃ part, reply = .ok part) ∧
        Open (delivered ++ Source.delivered replies) last) ∨
      ∃ front error count,
        replies = front ++ .error error.toIo :: .replicate count (.error (Sticky.ofError error).toIo) ∧
          (∀ reply ∈ front, ∃ part, reply = .ok part) ∧
          Ended (delivered ++ Source.delivered front) error last := by
  -- The induction is on the reads; the account grows by what the first one brings.
  induction rooms generalizing delivered reader replies with
  | nil =>
    cases run
    exact .inl ⟨List.forall_mem_nil _, by simpa [Source.delivered] using start⟩
  | cons room rooms ih =>
    obtain ⟨⟨reply, next⟩, call, run⟩ := Checked.bind_eq_ok_iff.mp run
    obtain ⟨⟨others, final⟩, rest, run⟩ := Checked.bind_eq_ok_iff.mp run
    cases run
    rcases halts.read start call with ⟨part, rfl, after⟩ | ⟨error, rfl, after⟩
    · have grown (replies : List (Except IoError Bytes)) :
          delivered ++ Source.delivered (.ok part :: replies) =
            delivered ++ part ++ Source.delivered replies := by
        rw [delivered_cons, ← List.append_assoc]
        rfl
      rcases ih after rest with ⟨all, still⟩ | ⟨front, error, count, rfl, all, ended⟩
      · refine .inl ⟨?_, by rwa [grown]⟩
        exact List.forall_mem_cons.mpr ⟨⟨part, rfl⟩, all⟩
      · refine .inr ⟨.ok part :: front, error, count, rfl, ?_, by rwa [grown]⟩
        exact List.forall_mem_cons.mpr ⟨⟨part, rfl⟩, all⟩
    · have repeated := (halts.silent after).readEach rooms
      cases rest.symm.trans repeated
      refine .inr ⟨[], error, rooms.length, rfl, List.forall_mem_nil _, ?_⟩
      simpa [Source.delivered] using after

end Halts

/-- All reads come back. At the first that fails, what the others have handed out is `Exposed` up to
its error, and the reader that it leaves is `Mute` with an error of the same kind. -/
def Quiescent (reader : ρ) (Exposed : Bytes → FinalError → Prop) (Mute : ρ → IoError → Prop) : Prop :=
  ∀ rooms room, ∃ replies next reply last,
    Source.readEach reader rooms = .ok (replies, next) ∧ read next room = .ok (reply, last) ∧
      ∀ first, (∀ earlier ∈ replies, ∃ part, earlier = .ok part) → reply = .error first →
        (∃ error : FinalError, first = error.toIo ∧ Exposed (Source.delivered replies) error) ∧
          ∃ later, later.kind = first.kind ∧ Mute last later

/-- A reader that halts, and comes back from every read, is quiescent after its first error. -/
theorem Halts.quiescent {Open : Bytes → ρ → Prop} {Ended : Bytes → DecodeError → ρ → Prop}
    (halts : Halts Open Ended) {Exposed : Bytes → FinalError → Prop} {Mute : ρ → IoError → Prop}
    (exposed : ∀ {delivered error reader}, Ended delivered error reader →
      Exposed delivered error.toFinal ∧ Mute reader (Sticky.ofError error).toIo)
    {reader : ρ} (start : Open [] reader) (responds : Responds reader) :
    Quiescent reader Exposed Mute := by
  obtain ⟨Inv, inv, answers⟩ := responds
  intro rooms room
  obtain ⟨⟨replies, next⟩, run, after⟩ := answers.readEach inv rooms
  obtain ⟨⟨reply, last⟩, call, _⟩ := answers next room after
  refine ⟨replies, next, reply, last, run, call, ?_⟩
  rintro first all rfl
  -- No read before was one that fails, so the account goes on up to this one.
  rcases halts.readEach start run with ⟨_, still⟩ | ⟨front, error, count, rfl, _⟩
  · rcases halts.read still call with ⟨part, same, _⟩ | ⟨error, same, ended⟩
    · cases same
    · obtain ⟨shown, mute⟩ := exposed ended
      exact ⟨⟨error.toFinal, Except.error.inj same, shown⟩, _,
        (Sticky.kind_ofError error).trans (congrArg _ (Except.error.inj same)).symm, mute⟩
  · obtain ⟨_, same⟩ := all (.error error.toIo) (by simp)
    cases same

/-- A read that fails first leaves a reader that is mute. -/
theorem Quiescent.of_first_read {reader : ρ} {Exposed : Bytes → FinalError → Prop}
    {Mute : ρ → IoError → Prop} (quiescent : Quiescent reader Exposed Mute) (room : Nat)
    (first : IoError) (fails : (match Source.read reader room with
      | .ok (.error error, _) => some error
      | _ => none) = some first) :
    ∃ last later, Source.read reader room = .ok (.error first, last) ∧ later.kind = first.kind ∧
      Mute last later := by
  obtain ⟨replies, next, reply, last, run, call, ends⟩ := quiescent [] room
  cases run
  rw [call] at fails
  cases reply with
  | ok part => cases fails
  | error error =>
    cases fails
    obtain ⟨_, later, kind, mute⟩ := ends _ (List.forall_mem_nil _) rfl
    exact ⟨last, later, call, kind, mute⟩

end Source

/-- A reader that halts is skipped past, comes to its end, or fails in between. -/
theorem Source.Halts.skip {ρ : Type} [Source ρ] {Open : Bytes → ρ → Prop}
    {Ended : Bytes → DecodeError → ρ → Prop} (halts : Source.Halts Open Ended) {delivered : Bytes}
    {reader last : ρ} {count : Nat} {reply : Except FinalError Nat} (start : Open delivered reader)
    (run : Source.skip reader count = .ok (reply, last)) :
    ∃ passed, passed.length ≤ count ∧
      ((reply = .ok passed.length ∧ Open (delivered ++ passed) last) ∨
        ∃ error, reply = .error error.toFinal ∧ passed.length < count ∧
          Ended (delivered ++ passed) error last) := by
  -- The induction follows the loop, in which an account never meets an interruption.
  fun_induction Source.skip reader count generalizing delivered reply last with
  | case1 reader =>
    cases run
    exact ⟨[], Nat.le_refl _, .inl ⟨rfl, by rwa [List.append_nil]⟩⟩
  | case2 => cases run
  | case3 reader count _ next call =>
    cases run
    rcases halts.read start call with ⟨part, same, after⟩ | ⟨error, same, _⟩ <;> cases same
    exact ⟨[], Nat.zero_le _, .inl ⟨rfl, after⟩⟩
  | case4 => cases run
  | case5 reader count _ bytes next call _ rest last inner ih =>
    cases run
    have short := Source.length_le_room call
    rcases halts.read start call with ⟨part, same, after⟩ | ⟨error, same, _⟩ <;> cases same
    obtain ⟨passed, within, come⟩ := ih after inner
    refine ⟨bytes ++ passed, by rw [List.length_append]; omega, ?_⟩
    rw [← List.append_assoc, List.length_append]
    rcases come with ⟨rfl, still⟩ | ⟨error, rfl, less, ended⟩
    · exact .inl ⟨rfl, still⟩
    · exact .inr ⟨error, rfl, by omega, ended⟩
  | case6 reader count _ error next call interrupted =>
    rcases halts.read start call with ⟨part, same, _⟩ | ⟨failure, same, _⟩ <;> cases same
    exact absurd interrupted failure.kind_ne
  | case7 reader count positive error next call _ =>
    cases run
    rcases halts.read start call with ⟨part, same, _⟩ | ⟨failure, same, ended⟩ <;> cases same
    exact ⟨[], Nat.zero_le _, .inr ⟨failure, rfl, Nat.pos_of_ne_zero positive,
      by rwa [List.append_nil]⟩⟩

namespace Source

/-! A reader that only passes on the reads of another halts where the other does. -/

variable {ρ τ : Type} [Source ρ] [Source τ] (outer : ρ → τ)
  (passes : ∀ reader room, Source.read (outer reader) room =
    (Source.read reader room).map fun (reply, next) => (reply, outer next))

include passes

theorem Silent.wrap {reader : ρ} {error : IoError} (silent : Silent reader error) :
    Silent (outer reader) error := by
  intro room
  rw [passes, silent room]
  rfl

theorem Halts.wrap {Open : Bytes → ρ → Prop} {Ended : Bytes → DecodeError → ρ → Prop}
    (halts : Halts Open Ended) :
    Halts (fun delivered reader => ∃ inner, reader = outer inner ∧ Open delivered inner)
      (fun delivered error reader =>
        ∃ inner, reader = outer inner ∧ Ended delivered error inner) where
  silent := by
    rintro _ _ _ ⟨inner, rfl, ended⟩
    exact (halts.silent ended).wrap outer passes
  read := by
    rintro _ _ _ room _ ⟨inner, rfl, opened⟩ call
    rw [passes] at call
    cases reading : Source.read inner room with
    | error trap => rw [reading] at call; cases call
    | ok result =>
      rw [reading] at call
      cases call
      rcases halts.read opened reading with ⟨part, same, after⟩ | ⟨error, same, ended⟩
      · exact .inl ⟨part, same, _, rfl, after⟩
      · exact .inr ⟨error, same, _, rfl, ended⟩

end Source

end SealedStream
