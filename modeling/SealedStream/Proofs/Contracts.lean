import SealedStream.Device.Feed
import SealedStream.Device.Medium
import SealedStream.Device.Outlet
import SealedStream.Device.Span
import SealedStream.Proofs.Pushing

/-!
# What devices and readers promise

A device may split its data as it likes and may interrupt a call. `Supplies` and `Serves` say that it
does nothing worse: every call ends, and what it hands out is the data in order. `SuppliesAmid` is the
same with other errors in between. `Yields` is the promise of a reader, which is never interrupted but
may end with an error. Each promise is the largest one that its clause for a single call preserves: a
state keeps it if some invariant holds of the state, is preserved by every call, and gives the clause.
-/
namespace SealedStream

namespace Source

variable {ρ : Type} [Source ρ]

/-- One turn of the loop that gathers. -/
theorem gather_eq_bind (source : ρ) {need : Nat} (nonzero : need ≠ 0) (room : Nat) :
    gather source need room = read source room >>= fun (reply, next) =>
      match reply with
      | .ok bytes =>
        if bytes = [] then .ok (.nothing, next)
        else gather next (need - bytes.length) (room - bytes.length) >>= fun (rest, last) =>
          .ok (⟨bytes ++ rest.bytes, rest.failure⟩, last)
      | .error error =>
        if final : error.kind = .interrupted then gather next need room
        else .ok (⟨[], some ⟨error, final⟩⟩, next) := by
  rw [gather, if_neg nonzero]
  split
  next call => rw [call]; rfl
  next bytes next call =>
    rw [call, Checked.ok_bind]
    dsimp only
    split
    next => rfl
    next => cases gather next (need - bytes.length) (room - bytes.length) <;> rfl
  next call => rw [call]; rfl

section

variable {source next : ρ} {need room : Nat} (wanting : need ≠ 0)

include wanting

theorem gather_of_end (call : read source room = .ok (.ok [], next)) :
    gather source need room = .ok (.nothing, next) := by
  rw [gather_eq_bind _ wanting, call, Checked.ok_bind]
  exact if_pos rfl

theorem gather_of_part {bytes : Bytes} (some : bytes ≠ [])
    (call : read source room = .ok (.ok bytes, next)) :
    gather source need room =
      gather next (need - bytes.length) (room - bytes.length) >>= fun (rest, last) =>
        .ok (⟨bytes ++ rest.bytes, rest.failure⟩, last) := by
  rw [gather_eq_bind _ wanting, call, Checked.ok_bind]
  exact if_neg some

theorem gather_of_interrupted {error : IoError} (kind : error.kind = .interrupted)
    (call : read source room = .ok (.error error, next)) :
    gather source need room = gather next need room := by
  rw [gather_eq_bind _ wanting, call, Checked.ok_bind]
  exact dif_pos kind

theorem gather_of_failed {cause : FinalError}
    (call : read source room = .ok (.error cause.toIo, next)) :
    gather source need room = .ok (⟨[], some cause⟩, next) := by
  rw [gather_eq_bind _ wanting, call, Checked.ok_bind]
  exact dif_neg cause.kind_ne

end

/-- What every read keeps, a gathering keeps. -/
theorem gather_keeps {Inv : ρ → Prop}
    (keeps : ∀ source room reply next, Inv source → read source room = .ok (reply, next) → Inv next)
    {source last : ρ} {need room : Nat} {gathered : Gathered} (start : Inv source)
    (run : gather source need room = .ok (gathered, last)) : Inv last := by
  fun_induction gather source need room generalizing gathered last with
  | case1 => cases run; exact start
  | case2 => cases run
  | case3 source need room _ next call => cases run; exact keeps _ _ _ _ start call
  | case4 => cases run
  | case5 source need room _ bytes next call _ rest middle inner ih =>
    cases run
    exact ih (keeps _ _ _ _ start call) inner
  | case6 source need room _ error next call _ ih => exact ih (keeps _ _ _ _ start call) run
  | case7 source need room _ error next call _ => cases run; exact keeps _ _ _ _ start call

/-! ### Sources of given bytes -/

/-- A source that has `bytes` to give and then ends: a read hands out a front part of them, and
nothing only if there is no room or nothing is left. It may also fail with an error that is tolerated,
and then it has given nothing. -/
def SuppliesAmid (Tolerated : IoError → Prop) (source : ρ) (bytes : Bytes) : Prop :=
  ∃ Inv : ρ → Bytes → Prop, Inv source bytes ∧ ∀ source bytes, Inv source bytes → ∀ room,
    (∃ part rest next, read source room = .ok (.ok part, next) ∧ bytes = part ++ rest ∧
      (part = [] → room = 0 ∨ bytes = []) ∧ Inv next rest) ∨
    (∃ error next, read source room = .ok (.error error, next) ∧ Tolerated error ∧ Inv next bytes)

/-- A source that has `bytes` to give and may only be interrupted in between. -/
def Supplies (source : ρ) (bytes : Bytes) : Prop :=
  SuppliesAmid (·.kind = .interrupted) source bytes

namespace SuppliesAmid

variable {Tolerated : IoError → Prop} {source next : ρ} {bytes part : Bytes} {room : Nat}

theorem read (supplies : SuppliesAmid Tolerated source bytes) (room : Nat) :
    (∃ part rest next, Source.read source room = .ok (.ok part, next) ∧ bytes = part ++ rest ∧
      (part = [] → room = 0 ∨ bytes = []) ∧ SuppliesAmid Tolerated next rest) ∨
    (∃ error next, Source.read source room = .ok (.error error, next) ∧ Tolerated error ∧
      SuppliesAmid Tolerated next bytes) := by
  obtain ⟨Inv, start, keeps⟩ := supplies
  rcases keeps source bytes start room with
    ⟨part, rest, next, call, split, progress, after⟩ | ⟨error, next, call, tolerated, after⟩
  · exact .inl ⟨part, rest, next, call, split, progress, Inv, after, keeps⟩
  · exact .inr ⟨error, next, call, tolerated, Inv, after, keeps⟩

theorem of_read (supplies : SuppliesAmid Tolerated source bytes)
    (call : Source.read source room = .ok (.ok part, next)) :
    ∃ rest, bytes = part ++ rest ∧ (part = [] → room = 0 ∨ bytes = []) ∧
      SuppliesAmid Tolerated next rest := by
  rcases supplies.read room with ⟨_, rest, _, read, split, progress, after⟩ | ⟨_, _, read, _⟩ <;>
    cases call.symm.trans read
  exact ⟨rest, split, progress, after⟩

theorem of_read_error {error : IoError} (supplies : SuppliesAmid Tolerated source bytes)
    (call : Source.read source room = .ok (.error error, next)) :
    Tolerated error ∧ SuppliesAmid Tolerated next bytes := by
  rcases supplies.read room with ⟨_, _, _, read, _⟩ | ⟨_, _, read, tolerated, after⟩ <;>
    cases call.symm.trans read
  exact ⟨tolerated, after⟩

/-- Gathering from such a source takes what it needs, comes short at the end of the data, or comes
short because a read failed. -/
theorem gather (supplies : SuppliesAmid Tolerated source bytes) (need room : Nat)
    (le : need ≤ room) :
    ∃ gathered rest last, Source.gather source need room = .ok (gathered, last) ∧
      bytes = gathered.bytes ++ rest ∧ SuppliesAmid Tolerated last rest ∧
      (gathered.failure = none → gathered.bytes.length < need → rest = []) ∧
      ∀ cause, gathered.failure = some cause →
        Tolerated cause.toIo ∧ gathered.bytes.length < need := by
  -- The induction follows the loop: it has enough, traps, sees the end, goes on, retries or fails.
  fun_induction Source.gather source need room generalizing bytes with
  | case1 source room =>
    exact ⟨_, bytes, source, rfl, rfl, supplies, fun _ less => absurd less (Nat.not_lt_zero _),
      fun _ none => (by cases none)⟩
  | case2 source need room _ trap call =>
    rcases supplies.read room with ⟨_, _, _, read, _⟩ | ⟨_, _, read, _⟩ <;>
      cases call.symm.trans read
  | case3 source need room positive next call =>
    obtain ⟨rest, split, progress, after⟩ := supplies.of_read call
    have ended : bytes = [] := (progress rfl).resolve_left (by omega)
    exact ⟨_, rest, next, rfl, split, after, fun _ _ => by simpa [ended, eq_comm] using split,
      fun _ none => (by cases none)⟩
  | case4 source need room positive part next call _ trap inner ih =>
    obtain ⟨_, _, _, after⟩ := supplies.of_read call
    obtain ⟨_, _, _, run, _⟩ := ih after (by omega)
    cases inner.symm.trans run
  | case5 source need room positive part next call _ gathered last inner ih =>
    obtain ⟨_, split, _, after⟩ := supplies.of_read call
    obtain ⟨_, rest, _, run, tail, final, short, failed⟩ := ih after (by omega)
    cases inner.symm.trans run
    refine ⟨_, rest, _, rfl, ?_, final, ?_, ?_⟩
    · rw [split, tail, List.append_assoc]
    · intro none less
      rw [List.length_append] at less
      exact short none (by omega)
    · intro cause some
      obtain ⟨tolerated, less⟩ := failed cause some
      rw [List.length_append]
      exact ⟨tolerated, by omega⟩
  | case6 source need room _ error next call _ ih => exact ih (supplies.of_read_error call).2 le
  | case7 source need room positive error next call final =>
    obtain ⟨tolerated, after⟩ := supplies.of_read_error call
    refine ⟨_, bytes, next, rfl, rfl, after, fun none => (by cases none), ?_⟩
    rintro _ ⟨⟩
    exact ⟨tolerated, Nat.pos_of_ne_zero positive⟩

/-- Skipping takes as many bytes as it is to skip, comes short at the end of the data, or fails behind
fewer bytes because a read failed. -/
theorem skip (supplies : SuppliesAmid Tolerated source bytes) (count : Nat) :
    ∃ reply part rest last, Source.skip source count = .ok (reply, last) ∧ bytes = part ++ rest ∧
      SuppliesAmid Tolerated last rest ∧
      (∀ skipped, reply = .ok skipped → part.length = skipped ∧ skipped ≤ count ∧
        (skipped < count → rest = [])) ∧
      ∀ cause, reply = .error cause → Tolerated cause.toIo ∧ part.length < count := by
  -- The induction follows the loop, as for gathering.
  fun_induction Source.skip source count generalizing bytes with
  | case1 source =>
    refine ⟨_, [], bytes, source, rfl, rfl, supplies, ?_, fun _ none => (by cases none)⟩
    rintro _ ⟨⟩
    exact ⟨rfl, Nat.le_refl 0, fun less => absurd less (Nat.lt_irrefl 0)⟩
  | case2 source count _ trap call =>
    rcases supplies.read (min skipBlock count) with ⟨_, _, _, read, _⟩ | ⟨_, _, read, _⟩ <;>
      cases call.symm.trans read
  | case3 source count positive next call =>
    obtain ⟨rest, split, progress, after⟩ := supplies.of_read call
    have ended : bytes = [] := (progress rfl).resolve_left (by
      simp only [skipBlock]
      omega)
    refine ⟨_, [], rest, next, rfl, split, after, ?_, fun _ none => (by cases none)⟩
    rintro _ ⟨⟩
    exact ⟨rfl, Nat.zero_le _, fun _ => by simpa [ended, eq_comm] using split⟩
  | case4 source count positive part next call _ trap inner ih =>
    obtain ⟨_, _, _, after⟩ := supplies.of_read call
    obtain ⟨_, _, _, _, run, _⟩ := ih after
    cases inner.symm.trans run
  | case5 source count positive part next call some reply last inner ih =>
    obtain ⟨_, split, _, after⟩ := supplies.of_read call
    obtain ⟨_, further, rest, _, run, tail, final, skips, fails⟩ := ih after
    cases inner.symm.trans run
    have bound := length_le_room call
    refine ⟨_, part ++ further, rest, _, rfl, ?_, final, ?_, ?_⟩
    · rw [split, tail, List.append_assoc]
    · intro skipped done
      cases reply with
      | error cause => cases done
      | ok others =>
        obtain rfl : part.length + others = skipped := Except.ok.inj done
        obtain ⟨length, within, short⟩ := skips others rfl
        rw [List.length_append]
        exact ⟨by omega, by omega, fun less => short (by omega)⟩
    · intro cause failed
      cases reply with
      | ok others => cases failed
      | error _ =>
        cases failed
        obtain ⟨tolerated, less⟩ := fails cause rfl
        rw [List.length_append]
        exact ⟨tolerated, by omega⟩
  | case6 source count _ error next call _ ih => exact ih (supplies.of_read_error call).2
  | case7 source count positive error next call final =>
    obtain ⟨tolerated, after⟩ := supplies.of_read_error call
    refine ⟨_, [], bytes, next, rfl, rfl, after, fun _ none => (by cases none), ?_⟩
    rintro _ ⟨⟩
    exact ⟨tolerated, Nat.pos_of_ne_zero positive⟩

end SuppliesAmid

/-- Gathering from a source that is only interrupted never fails, and comes short only at the end of
the data. -/
theorem Supplies.gather {source : ρ} {bytes : Bytes} (supplies : Supplies source bytes)
    (need room : Nat) (le : need ≤ room) :
    ∃ part rest last, Source.gather source need room = .ok (⟨part, none⟩, last) ∧
      bytes = part ++ rest ∧ (part.length < need → rest = []) ∧ Supplies last rest := by
  obtain ⟨⟨part, failure⟩, rest, last, run, split, after, short, failed⟩ :=
    SuppliesAmid.gather supplies need room le
  cases failure with
  | some cause => exact absurd (failed cause rfl).1 cause.kind_ne
  | none => exact ⟨part, rest, last, run, split, short rfl, after⟩

/-- A buffer is filled from such a source as far as the data goes. -/
theorem Supplies.readFull {source : ρ} {bytes : Bytes} (supplies : Supplies source bytes)
    (room : Nat) :
    ∃ last, Source.readFull source room = .ok (⟨bytes.take room, none⟩, last) ∧
      Supplies last (bytes.drop room) := by
  obtain ⟨part, rest, last, gathering, split, short, after⟩ :=
    supplies.gather room room (Nat.le_refl room)
  have fits := length_gather_le gathering
  -- What was gathered is the data up to its end, or as much as there is room for.
  by_cases less : part.length < room
  · have ended := short less
    subst ended
    rw [List.append_nil] at split
    subst split
    rw [List.take_of_length_le fits, List.drop_of_length_le fits]
    exact ⟨last, gathering, after⟩
  · have exact : part.length = room := Nat.le_antisymm fits (Nat.le_of_not_lt less)
    rw [split, ← exact, List.take_left, List.drop_left, exact]
    exact ⟨last, gathering, after⟩

/-! ### Readers -/

/-- The reply of a reader that has handed out everything. -/
def ending : Option FinalError → Except IoError Bytes
  | none => .ok []
  | some error => .error error.toIo

/-- A reader that hands out `bytes`, at least one of them at each read that has room, and then
either ends or fails. -/
def Yields (source : ρ) (bytes : Bytes) (failure : Option FinalError) : Prop :=
  ∃ Inv : ρ → Bytes → Prop, Inv source bytes ∧ ∀ source bytes, Inv source bytes → ∀ room, 0 < room →
    (∃ part rest next, read source room = .ok (.ok part, next) ∧ part ≠ [] ∧ bytes = part ++ rest ∧
      Inv next rest) ∨
    (bytes = [] ∧ ∃ next, read source room = .ok (ending failure, next))

variable {source : ρ} {bytes : Bytes} {failure : Option FinalError}

theorem Yields.read (yields : Yields source bytes failure) {room : Nat} (positive : 0 < room) :
    (∃ part rest next, Source.read source room = .ok (.ok part, next) ∧ part ≠ [] ∧
      bytes = part ++ rest ∧ Yields next rest failure) ∨
    (bytes = [] ∧ ∃ next, Source.read source room = .ok (ending failure, next)) := by
  obtain ⟨Inv, start, keeps⟩ := yields
  rcases keeps source bytes start room positive with
    ⟨part, rest, next, call, some, split, after⟩ | ended
  · exact .inl ⟨part, rest, next, call, some, split, Inv, after, keeps⟩
  · exact .inr ended

/-- A reader that only passes on the reads of another yields what the other yields. -/
theorem Yields.wrap {ρ' : Type} [Source ρ'] (wrap : ρ → ρ')
    (passes : ∀ source room, Source.read (wrap source) room =
      (Source.read source room).map fun (reply, next) => (reply, wrap next))
    (yields : Yields source bytes failure) : Yields (wrap source) bytes failure := by
  refine ⟨fun outer bytes => ∃ inner, outer = wrap inner ∧ Yields inner bytes failure,
    ⟨source, rfl, yields⟩, ?_⟩
  rintro _ bytes ⟨inner, rfl, yields⟩ room positive
  rw [passes]
  rcases yields.read positive with ⟨part, rest, next, call, some, split, after⟩ | ⟨none, next, call⟩
  · exact .inl ⟨part, rest, wrap next, by rw [call]; rfl, some, split, next, rfl, after⟩
  · exact .inr ⟨none, wrap next, by rw [call]; rfl⟩

/-- A reader that hands out bytes that wait, and if none wait reads as it would once it has loaded
some, yields the bytes that wait and what is behind them. -/
theorem Yields.of_pending (pending : ρ → Bytes) (Behind : ρ → Bytes → Prop)
    (hands : ∀ source behind room, Behind source behind → pending source ≠ [] →
      ∃ next, Source.read source room = .ok (.ok ((pending source).take room), next) ∧
        pending next = (pending source).drop room ∧ Behind next behind)
    (loads : ∀ source behind room, Behind source behind → pending source = [] →
      (behind = [] ∧ ∃ next, Source.read source room = .ok (ending failure, next)) ∨
      (∃ loaded rest, Source.read source room = Source.read loaded room ∧ pending loaded ≠ [] ∧
        behind = pending loaded ++ rest ∧ Behind loaded rest))
    {behind : Bytes} (start : Behind source behind) :
    Yields source (pending source ++ behind) failure := by
  refine ⟨fun source bytes => ∃ behind, bytes = pending source ++ behind ∧ Behind source behind,
    ⟨behind, rfl, start⟩, ?_⟩
  rintro source _ ⟨behind, rfl, inv⟩ room positive
  have handed : ∀ loaded rest, pending loaded ≠ [] → Behind loaded rest →
      Source.read source room = Source.read loaded room →
      ∃ part others next, Source.read source room = .ok (.ok part, next) ∧ part ≠ [] ∧
        pending loaded ++ rest = part ++ others ∧
        ∃ behind, others = pending next ++ behind ∧ Behind next behind := by
    intro loaded rest waiting inv same
    obtain ⟨next, read, left, after⟩ := hands loaded rest room inv waiting
    refine ⟨_, _, next, same.trans read, ?_, ?_, rest, rfl, after⟩
    · simpa [waiting] using Nat.ne_of_gt positive
    · rw [left, ← List.append_assoc, List.take_append_drop]
  by_cases waiting : pending source = []
  · rw [waiting, List.nil_append]
    rcases loads source behind room inv waiting with ended | ⟨loaded, rest, same, some, rfl, after⟩
    · exact .inr ended
    · exact .inl (handed loaded rest some after same)
  · exact .inl (handed source behind waiting inv rfl)

theorem skip_of_read {next : ρ} {count : Nat} {part : Bytes} (nonzero : count ≠ 0)
    (call : read source (min skipBlock count) = .ok (.ok part, next)) (some : part ≠ []) :
    skip source count =
      (skip next (count - part.length)).map fun (reply, last) =>
        (reply.map (part.length + ·), last) := by
  rw [skip, if_neg nonzero]
  split
  next other => cases call.symm.trans other
  next other =>
    cases call.symm.trans other
    rw [if_neg some]
    cases skip next (count - part.length) <;> rfl
  next other => cases call.symm.trans other

/-- Skipping within what a reader hands out succeeds and loses nothing behind. -/
theorem Yields.skip_of_le (yields : Yields source bytes failure) (count : Nat)
    (le : count ≤ bytes.length) :
    ∃ last, Source.skip source count = .ok (.ok count, last) ∧
      Yields last (bytes.drop count) failure := by
  -- The induction is on what is left to skip, which every read makes less.
  induction count using Nat.strongRecOn generalizing source bytes with
  | _ count ih =>
    by_cases nonzero : count = 0
    · subst nonzero
      exact ⟨source, by rw [Source.skip, if_pos rfl], yields⟩
    · have room : 0 < min skipBlock count := by
        simp only [skipBlock]
        omega
      -- The reader has enough bytes, so a read within them brings some.
      rcases yields.read room with ⟨part, rest, next, call, some, rfl, after⟩ | ⟨rfl, _⟩
      · have positive : 0 < part.length := List.length_pos_iff.mpr some
        have short := length_le_room call
        rw [List.length_append] at le
        obtain ⟨last, run, final⟩ := ih (count - part.length) (by omega) after (by omega)
        have whole : part.length + (count - part.length) = count := by omega
        refine ⟨last, ?_, ?_⟩
        · rw [skip_of_read nonzero call some, run]
          simp [Except.map, whole]
        · rw [List.drop_append, List.drop_of_length_le (by omega), List.nil_append]
          exact final
      · exact absurd le (by simpa using nonzero)

/-- How far reading on with a row of buffers has come. -/
inductive Progress where
  | unfinished
  | ended
  | failed (error : IoError)
deriving DecidableEq

/-- What a row of reads handed out. -/
structure Drained where
  bytes : Bytes
  progress : Progress
deriving DecidableEq

/-- Reads on, with a buffer of each given length in turn, until the data ends or a read fails. -/
def drain (source : ρ) : List Nat → Checked (Drained × ρ)
  | [] => .ok (⟨[], .unfinished⟩, source)
  | room :: rooms => do
    let (reply, next) ← read source room
    match reply with
    | .error error => return (⟨[], .failed error⟩, next)
    | .ok part =>
      if part = [] then return (⟨[], .ended⟩, next)
      else
        let (rest, last) ← drain next rooms
        return (⟨part ++ rest.bytes, rest.progress⟩, last)

/-- How reading a reader on comes to its end. -/
def Progress.ofFailure : Option FinalError → Progress
  | none => .ended
  | some error => .failed error.toIo

/-- Buffers that are not empty drain a reader, or bring at least one byte each. -/
theorem Yields.drain (yields : Yields source bytes failure) (rooms : List Nat)
    (positive : ∀ room ∈ rooms, 0 < room) :
    ∃ drained last, Source.drain source rooms = .ok (drained, last) ∧
      (drained = ⟨bytes, .ofFailure failure⟩ ∨
        drained.bytes <+: bytes ∧ rooms.length ≤ drained.bytes.length) := by
  induction rooms generalizing source bytes with
  | nil => exact ⟨_, source, rfl, .inr ⟨List.nil_prefix, Nat.zero_le _⟩⟩
  | cons room rooms ih =>
    rcases yields.read (positive room (by simp)) with
      ⟨part, rest, next, call, some, rfl, after⟩ | ⟨rfl, next, call⟩
    · obtain ⟨drained, last, run, come⟩ := ih after fun room member => positive room (by simp [member])
      refine ⟨⟨part ++ drained.bytes, drained.progress⟩, last, ?_, ?_⟩
      · simp only [Source.drain, call, Checked.ok_bind, some, if_false, run]
        rfl
      · rcases come with rfl | ⟨front, progress⟩
        · exact .inl rfl
        · have positive : 0 < part.length := List.length_pos_iff.mpr some
          refine .inr ⟨(List.prefix_append_right_inj part).mpr front, ?_⟩
          rw [List.length_cons, List.length_append]
          omega
    · refine ⟨⟨[], .ofFailure failure⟩, next, ?_, .inl rfl⟩
      cases failure <;> simp [Source.drain, call, ending, Progress.ofFailure, pure, Except.pure]

/-- Buffers that are not empty bring a front part of the bytes, and the end too if there are enough of
them. -/
theorem Yields.drain_front (yields : Yields source bytes failure) (rooms : List Nat)
    (positive : ∀ room ∈ rooms, 0 < room) :
    ∃ drained last, Source.drain source rooms = .ok (drained, last) ∧ drained.bytes <+: bytes ∧
      (bytes.length < rooms.length → drained = ⟨bytes, .ofFailure failure⟩) := by
  obtain ⟨drained, last, run, rfl | ⟨front, progress⟩⟩ := yields.drain rooms positive
  · exact ⟨_, last, run, List.prefix_refl _, fun _ => rfl⟩
  · refine ⟨drained, last, run, front, fun enough => ?_⟩
    have short := front.length_le
    omega

/-- More buffers than there are bytes, none of them empty, drain a reader. -/
theorem Yields.drain_all (yields : Yields source bytes failure) {rooms : List Nat}
    (positive : ∀ room ∈ rooms, 0 < room) (enough : bytes.length < rooms.length) :
    ∃ last, Source.drain source rooms = .ok (⟨bytes, .ofFailure failure⟩, last) := by
  obtain ⟨drained, last, run, _, all⟩ := yields.drain_front rooms positive
  rw [all enough] at run
  exact ⟨last, run⟩

end Source

/-! ### Stores -/

namespace ReadableStore

variable {σ : Type} [ReadableStore σ]

/-- A store from which `contents` are read without a fault: a read hands out a front part of what
lies behind its offset, and nothing only if there is no room or nothing lies there. It may also be
interrupted. -/
def Serves (store : σ) (contents : Bytes) : Prop :=
  ∃ Inv : σ → Prop, Inv store ∧ ∀ store, Inv store → ∀ offset room,
    (∃ part next, readAt store offset room = .ok (.ok part, next) ∧
      part <+: contents.drop offset ∧ (part = [] → room = 0 ∨ contents.length ≤ offset) ∧
      Inv next) ∨
    (∃ error next, readAt store offset room = .ok (.error error, next) ∧
      error.kind = .interrupted ∧ Inv next)

theorem Serves.readAt {store : σ} {contents : Bytes} (serves : Serves store contents)
    (offset room : Nat) :
    (∃ part next, ReadableStore.readAt store offset room = .ok (.ok part, next) ∧
      part <+: contents.drop offset ∧ (part = [] → room = 0 ∨ contents.length ≤ offset) ∧
      Serves next contents) ∨
    (∃ error next, ReadableStore.readAt store offset room = .ok (.error error, next) ∧
      error.kind = .interrupted ∧ Serves next contents) := by
  obtain ⟨Inv, start, keeps⟩ := serves
  rcases keeps store start offset room with
    ⟨part, next, call, front, progress, after⟩ | ⟨error, next, call, kind, after⟩
  · exact .inl ⟨part, next, call, front, progress, Inv, after, keeps⟩
  · exact .inr ⟨error, next, call, kind, Inv, after, keeps⟩

/-- No read takes the promise away. -/
theorem Serves.keeps {store next : σ} {contents : Bytes} {offset room : Nat}
    {reply : Except IoError Bytes} (serves : Serves store contents)
    (call : ReadableStore.readAt store offset room = .ok (reply, next)) : Serves next contents := by
  rcases serves.readAt offset room with ⟨_, _, read, _, _, after⟩ | ⟨_, _, read, _, after⟩ <;>
    cases call.symm.trans read <;> exact after

end ReadableStore

/-- Such a store, read on from an offset, is a source of what lies behind the offset. -/
theorem Probe.supplies {σ : Type} [ReadableStore σ] {store : σ} {contents : Bytes}
    (serves : ReadableStore.Serves store contents) (bounded : contents.length < offsetLimit)
    {start : Nat} (fits : start < offsetLimit) :
    Source.Supplies (⟨store, start, 0⟩ : Probe σ) (contents.drop start) := by
  -- What is left to give is what lies behind the bytes already taken.
  refine ⟨fun probe bytes => ReadableStore.Serves probe.store contents ∧
    probe.start + probe.taken < offsetLimit ∧ bytes = contents.drop (probe.start + probe.taken),
    ⟨serves, fits, rfl⟩, ?_⟩
  rintro ⟨store, start, taken⟩ bytes ⟨serves, fits, rfl⟩ room
  dsimp only at serves fits ⊢
  have place : Checked.add start taken = .ok (start + taken) := Checked.add_eq_ok fits
  change (∃ part rest next, Probe.read _ room = _ ∧ _) ∨ (∃ error next, Probe.read _ room = _ ∧ _)
  rcases serves.readAt (start + taken) room with
    ⟨part, next, call, ⟨rest, split⟩, progress, after⟩ | ⟨error, next, call, kind, after⟩
  · have inside := congrArg List.length split
    rw [List.length_append, List.length_drop] at inside
    refine .inl ⟨part, rest, ⟨next, start, taken + part.length⟩, ?_, split.symm, ?_, after, ?_, ?_⟩
    · simp only [Probe.read, place, Checked.ok_bind, call, pure, Except.pure]
    · intro empty
      exact (progress empty).imp_right List.drop_of_length_le
    · dsimp only
      omega
    · rw [← Nat.add_assoc, ← List.drop_drop, ← split, List.drop_left]
  · refine .inr ⟨error, ⟨next, start, taken⟩, ?_, kind, after, fits, rfl⟩
    simp only [Probe.read, place, Checked.ok_bind, call, pure, Except.pure]

namespace ReadableStore

variable {σ : Type} [ReadableStore σ]

/-- A property of stores that no read takes away, and that makes them serve some contents. -/
structure Stable (Held : σ → Prop) (contents : Bytes) : Prop where
  serves {store : σ} : Held store → Serves store contents
  keeps {store next : σ} {offset room : Nat} {reply : Except IoError Bytes} : Held store →
    ReadableStore.readAt store offset room = .ok (reply, next) → Held next

theorem Serves.stable (contents : Bytes) : Stable (σ := σ) (Serves · contents) contents where
  serves held := held
  keeps held call := held.keeps call

/-- A buffer is filled from such a store as far as its contents go. -/
theorem Stable.readFullAt {Held : σ → Prop} {contents : Bytes} (stable : Stable Held contents)
    {store : σ} (held : Held store) (bounded : contents.length < offsetLimit) {offset : Nat}
    (place : offset < offsetLimit) (room : Nat) :
    ∃ next, ReadableStore.readFullAt store offset room =
        .ok (⟨(contents.drop offset).take room, none⟩, next) ∧ Held next := by
  obtain ⟨last, reading, _⟩ := (Probe.supplies (stable.serves held) bounded place).readFull room
  refine ⟨last.store, ?_, ?_⟩
  · rw [ReadableStore.readFullAt, reading]
    rfl
  · have keeps : ∀ (probe : Probe σ) room reply next, Held probe.store →
        Source.read probe room = .ok (reply, next) → Held next.store := by
      intro probe room reply next before call
      obtain ⟨_, inner⟩ := Probe.readAt_of_read call
      exact stable.keeps before inner
    exact Source.gather_keeps keeps held reading

end ReadableStore

namespace Clipped

variable {σ : Type} [ReadableStore σ]

/-- The store is cut off at an offset, and the one behind it serves some contents. -/
structure Cuts (contents : Bytes) (stop : Nat) (clipped : Clipped σ) : Prop where
  serves : ReadableStore.Serves clipped.store contents
  stops : clipped.stop = stop

variable {contents : Bytes} {stop : Nat}

theorem Cuts.keeps {clipped next : Clipped σ} {offset room : Nat} {reply : Except IoError Bytes}
    (cuts : Cuts contents stop clipped) (call : clipped.readAt offset room = .ok (reply, next)) :
    Cuts contents stop next := by
  unfold readAt at call
  split at call
  next =>
    cases call
    exact cuts
  next =>
    obtain ⟨_, inner, call⟩ := Checked.bind_eq_ok_iff.mp call
    cases call
    exact ⟨cuts.serves.keeps inner, cuts.stops⟩

/-- A store that is cut off at an offset serves what lies before it. -/
theorem Cuts.clip {clipped : Clipped σ} (cuts : Cuts contents stop clipped) :
    ReadableStore.Serves clipped (contents.take stop) := by
  refine ⟨Cuts contents stop, cuts, ?_⟩
  intro clipped cuts offset room
  change (∃ part next, clipped.readAt offset room = _ ∧ _) ∨
    (∃ error next, clipped.readAt offset room = _ ∧ _)
  by_cases past : clipped.stop ≤ offset
  · have call : clipped.readAt offset room = .ok (.ok [], clipped) := by
      rw [readAt, if_pos past]
      rfl
    refine .inl ⟨[], clipped, call, List.nil_prefix, fun _ => .inr ?_, cuts⟩
    rw [List.length_take, ← cuts.stops]
    omega
  · rcases cuts.serves.readAt offset (min room (clipped.stop - offset)) with
      ⟨part, next, read, front, progress, _⟩ | ⟨error, next, read, kind, _⟩
    · have call : clipped.readAt offset room = .ok (.ok part, { clipped with store := next }) := by
        rw [readAt, if_neg past, read]
        rfl
      have short := ReadableStore.length_le_room read
      refine .inl ⟨part, _, call, ?_, fun none => ?_, cuts.keeps call⟩
      · rw [List.drop_take, List.prefix_take_iff, ← cuts.stops]
        exact ⟨front, by omega⟩
      · have ended := progress none
        rw [List.length_take]
        omega
    · have call : clipped.readAt offset room = .ok (.error error, { clipped with store := next }) := by
        rw [readAt, if_neg past, read]
        rfl
      exact .inr ⟨error, _, call, kind, cuts.keeps call⟩

theorem stable (contents : Bytes) (stop : Nat) :
    ReadableStore.Stable (σ := Clipped σ) (Cuts contents stop) (contents.take stop) where
  serves := Cuts.clip
  keeps := Cuts.keeps

end Clipped

/-- A part of such a store is a source of the bytes that lie in it. -/
theorem Span.supplies {σ : Type} [ReadableStore σ] {store : σ} {contents : Bytes}
    (serves : ReadableStore.Serves store contents) {position stop : Nat} (le : position ≤ stop)
    (fits : stop < offsetLimit) :
    Source.Supplies (⟨store, position, stop⟩ : Span σ)
      ((contents.drop position).take (stop - position)) := by
  -- The position moves towards the stop, and what is left to give is what lies between them.
  refine ⟨fun span bytes => ReadableStore.Serves span.store contents ∧ span.position ≤ span.stop ∧
    span.stop < offsetLimit ∧ bytes = (contents.drop span.position).take (span.stop - span.position),
    ⟨serves, le, fits, rfl⟩, ?_⟩
  rintro ⟨store, position, stop⟩ bytes ⟨serves, le, fits, rfl⟩ room
  dsimp only at serves le fits ⊢
  have left : (⟨store, position, stop⟩ : Span σ).remaining = .ok (stop - position) :=
    Checked.sub_eq_ok le
  change (∃ part rest next, Span.read _ room = _ ∧ _) ∨ (∃ error next, Span.read _ room = _ ∧ _)
  by_cases none : min room (stop - position) = 0
  · refine .inl ⟨[], _, ⟨store, position, stop⟩, ?_, rfl, ?_, serves, le, fits, rfl⟩
    · simp only [Span.read, left, Checked.ok_bind, none, if_true, pure, Except.pure]
    · intro _
      rcases Nat.min_eq_zero_iff.mp none with full | done
      · exact .inl full
      · exact .inr (by simp [done])
  · rcases serves.readAt position (min room (stop - position)) with
      ⟨part, next, call, ⟨rest, split⟩, progress, after⟩ | ⟨error, next, call, kind, after⟩
    · have short := ReadableStore.length_le_room call
      have place : Checked.add position part.length = .ok (position + part.length) :=
        Checked.add_eq_ok (by omega)
      refine .inl ⟨part, (contents.drop (position + part.length)).take
        (stop - (position + part.length)), ⟨next, position + part.length, stop⟩, ?_, ?_, ?_, after,
        by dsimp only; omega, fits, rfl⟩
      · simp only [Span.read, left, Checked.ok_bind, none, if_false, call, place, pure, Except.pure]
      · rw [← List.drop_drop, ← split, List.drop_left, List.take_append,
          List.take_of_length_le (by omega), Nat.sub_sub]
      · intro empty
        rcases progress empty with full | past
        · exact absurd full none
        · exact .inr (by rw [List.drop_of_length_le past, List.take_nil])
    · refine .inr ⟨error, ⟨next, position, stop⟩, ?_, kind, after, le, fits, rfl⟩
      simp only [Span.read, left, Checked.ok_bind, none, if_false, call, pure, Except.pure]

/-! ### Sinks -/

namespace Sink

variable {κ : Type} [Sink κ]

/-- A sink that takes everything: each write of some bytes takes at least one of them, and `taken`
shows what it has by then. It may also be interrupted. -/
def Accepts (taken : κ → Bytes) (sink : κ) : Prop :=
  ∃ Inv : κ → Prop, Inv sink ∧ ∀ sink, Inv sink → ∀ bytes, bytes ≠ [] →
    (∃ count next, write sink bytes = .ok (.ok count, next) ∧ 0 < count ∧
      taken next = taken sink ++ bytes.take count ∧ Inv next) ∨
    (∃ error next, write sink bytes = .ok (.error error, next) ∧ error.kind = .interrupted ∧
      taken next = taken sink ∧ Inv next)

variable {taken : κ → Bytes}

theorem Accepts.write {sink : κ} (accepts : Accepts taken sink) {bytes : Bytes}
    (some : bytes ≠ []) :
    (∃ count next, Sink.write sink bytes = .ok (.ok count, next) ∧ 0 < count ∧
      taken next = taken sink ++ bytes.take count ∧ Accepts taken next) ∨
    (∃ error next, Sink.write sink bytes = .ok (.error error, next) ∧ error.kind = .interrupted ∧
      taken next = taken sink ∧ Accepts taken next) := by
  obtain ⟨Inv, start, keeps⟩ := accepts
  rcases keeps sink start bytes some with
    ⟨count, next, call, positive, grown, after⟩ | ⟨error, next, call, kind, same, after⟩
  · exact .inl ⟨count, next, call, positive, grown, Inv, after, keeps⟩
  · exact .inr ⟨error, next, call, kind, same, Inv, after, keeps⟩

theorem Accepts.of_write {sink next : κ} {bytes : Bytes} {count : Nat}
    (accepts : Accepts taken sink) (some : bytes ≠ [])
    (call : Sink.write sink bytes = .ok (.ok count, next)) :
    0 < count ∧ taken next = taken sink ++ bytes.take count ∧ Accepts taken next := by
  rcases accepts.write some with ⟨_, _, written, progress⟩ | ⟨_, _, written, _⟩ <;>
    cases call.symm.trans written
  exact progress

theorem Accepts.of_write_error {sink next : κ} {bytes : Bytes} {error : IoError}
    (accepts : Accepts taken sink) (some : bytes ≠ [])
    (call : Sink.write sink bytes = .ok (.error error, next)) :
    error.kind = .interrupted ∧ taken next = taken sink ∧ Accepts taken next := by
  rcases accepts.write some with ⟨_, _, written, _⟩ | ⟨_, _, written, interrupted⟩ <;>
    cases call.symm.trans written
  exact interrupted

/-- What such a sink has grows by what its writes take, however much is offered. -/
theorem Accepts.perfect : Perfect (fun sink _ => Accepts taken sink)
    (fun first last bytes => taken last = taken first ++ bytes) where
  still _ := (List.append_nil _).symm
  trans moved further := by rw [further, moved, List.append_assoc]
  answers accepts some _ := by
    rcases accepts.write some with ⟨_, next, call, _⟩ | ⟨_, next, call, _⟩ <;>
      exact ⟨_, next, call⟩
  took accepts some _ call := (accepts.of_write some call).2
  failed accepts some _ call := by
    obtain ⟨_, same, after⟩ := accepts.of_write_error some call
    exact ⟨by rw [same, List.append_nil], after⟩
  takes accepts some _ call := (accepts.of_write some call).1
  retries accepts some _ call := (accepts.of_write_error some call).1

/-- A drain takes all that it is offered. -/
theorem drain_perfect : Perfect (κ := Drain) (fun _ _ => True) (fun _ _ _ => True) where
  still _ := trivial
  trans _ _ := trivial
  answers _ _ _ := ⟨_, _, rfl⟩
  took _ _ _ _ := ⟨trivial, trivial⟩
  failed _ _ _ _ := ⟨trivial, trivial⟩
  takes _ some _ call := by
    cases call
    exact List.length_pos_iff.mpr some
  retries _ _ _ call := by cases call

/-- A loop of writes to such a sink gets rid of everything. -/
theorem Accepts.push {sink : κ} (accepts : Accepts taken sink) (bytes : Bytes) :
    ∃ last, Sink.push sink bytes = .ok (⟨bytes.length, none⟩, last) ∧
      taken last = taken sink ++ bytes ∧ Accepts taken last :=
  Accepts.perfect.push accepts (Nat.le_refl _)

end Sink

/-! ### Scripted devices -/

/-- An event that transfers something or interrupts. -/
def Event.Gentle : Event → Prop
  | .limit count => 0 < count
  | .fail error => error.kind = .interrupted

instance : DecidablePred Event.Gentle
  | .limit count => inferInstanceAs (Decidable (0 < count))
  | .fail error => inferInstanceAs (Decidable (error.kind = .interrupted))

theorem Medium.serves {medium : Medium} (gentle : ∀ event ∈ medium.readScript, event.Gentle) :
    ReadableStore.Serves medium medium.contents.bytes := by
  -- The contents stay, and what is left of a gentle script is gentle.
  refine ⟨fun other => other.contents = medium.contents ∧ ∀ event ∈ other.readScript, event.Gentle,
    ⟨rfl, gentle⟩, ?_⟩
  rintro ⟨contents, writable, readScript, writeScript, writes⟩ ⟨rfl, gentle⟩ offset room
  have progress : ∀ count, (medium.contents.bytes.drop offset).take count = [] →
      count = 0 ∨ medium.contents.length ≤ offset := by
    intro count none
    rw [List.take_eq_nil_iff, List.drop_eq_nil_iff] at none
    exact none
  cases readScript with
  | nil => exact .inl ⟨_, _, rfl, List.take_prefix _ _, progress room, rfl, gentle⟩
  | cons event rest =>
    obtain ⟨first, others⟩ := List.forall_mem_cons.mp gentle
    cases event with
    | limit count =>
      refine .inl ⟨_, _, rfl, List.take_prefix _ _, fun none => ?_, rfl, others⟩
      have positive : 0 < count := first
      exact (progress _ none).imp_left (by omega)
    | fail error => exact .inr ⟨error, _, rfl, first, rfl, others⟩

/-- A feed supplies its bytes amid the errors of its script, if no read is cut down to nothing. -/
theorem Feed.suppliesAmid {Tolerated : IoError → Prop} {feed : Feed} (moves : .limit 0 ∉ feed.script)
    (tolerated : ∀ error, .fail error ∈ feed.script → Tolerated error) :
    Source.SuppliesAmid Tolerated feed feed.bytes := by
  -- What is left of such a script is such a script.
  refine ⟨fun other bytes => other.bytes = bytes ∧ .limit 0 ∉ other.script ∧
    ∀ error, .fail error ∈ other.script → Tolerated error, ⟨rfl, moves, tolerated⟩, ?_⟩
  rintro ⟨bytes, script⟩ _ ⟨rfl, moves, tolerated⟩ room
  have progress : ∀ count, bytes.take count = [] → count = 0 ∨ bytes = [] := fun count none =>
    List.take_eq_nil_iff.mp none
  cases script with
  | nil =>
    exact .inl ⟨_, _, _, rfl, (List.take_append_drop room bytes).symm, progress room, rfl, moves,
      tolerated⟩
  | cons event rest =>
    obtain ⟨first, others⟩ := not_or.mp (mt List.mem_cons.mpr moves)
    have behind : ∀ error, .fail error ∈ rest → Tolerated error := fun error member =>
      tolerated error (List.mem_cons_of_mem _ member)
    cases event with
    | limit count =>
      have positive : count ≠ 0 := fun zero => first (by rw [zero])
      refine .inl ⟨_, _, _, rfl, (List.take_append_drop (min room count) bytes).symm, ?_, rfl,
        others, behind⟩
      intro none
      exact (progress _ none).imp_left (by omega)
    | fail error =>
      exact .inr ⟨error, _, rfl, tolerated error List.mem_cons_self, rfl, others, behind⟩

theorem Feed.supplies {feed : Feed} (gentle : ∀ event ∈ feed.script, event.Gentle) :
    Source.Supplies feed feed.bytes :=
  suppliesAmid (fun nothing => absurd (gentle _ nothing) (Nat.lt_irrefl 0))
    fun _ member => gentle _ member

theorem Outlet.accepts {outlet : Outlet} (gentle : ∀ event ∈ outlet.script, event.Gentle) :
    Sink.Accepts Outlet.taken outlet := by
  -- What is left of a gentle script is gentle.
  refine ⟨fun outlet => ∀ event ∈ outlet.script, event.Gentle, gentle, ?_⟩
  rintro ⟨taken, script, flushScript, writes, flushes⟩ gentle bytes some
  have length : 0 < bytes.length := List.length_pos_iff.mpr some
  cases script with
  | nil =>
    refine .inl ⟨_, _, rfl, ?_, ?_, gentle⟩
    · rwa [List.take_length]
    · simp
  | cons event rest =>
    obtain ⟨first, others⟩ := List.forall_mem_cons.mp gentle
    cases event with
    | limit count =>
      have positive : 0 < count := first
      refine .inl ⟨_, _, rfl, ?_, ?_, others⟩
      · rw [List.length_take]
        omega
      · simp [List.length_take]
    | fail error => exact .inr ⟨error, _, rfl, first, rfl, others⟩

end SealedStream
