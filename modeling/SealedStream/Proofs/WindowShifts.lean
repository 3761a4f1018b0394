import SealedStream.Proofs.EncodingGaps
import SealedStream.Reader.Window

/-!
# Windows amid errors

A window skips to its start at the first read. If the source fails on the way, the bytes passed by then
are gone, and the next read skips the whole count again from where the source is. So the window ends up
that many bytes too far to the right, once for each failure on the way (`Window.shows_amid_errors`). It
shows the bytes that it was made for if no read of the source failed between the first byte skipped and
the last. An error after the window has been reached shifts nothing.
-/
namespace SealedStream

namespace Window

variable {ρ : Type} [Source ρ] {data : Bytes} {skip limit : Nat}
  {replies : List (Except IoError Bytes)} {lost : List Bytes} {window : Window ρ}

/-- The replies start with one error for each of the failed skips, each of these passed fewer bytes than
it was to skip, and together they passed the data from its start. -/
structure Shifts (data : Bytes) (skip : Nat) (replies : List (Except IoError Bytes))
    (lost : List Bytes) : Prop where
  front : lost.flatten <+: data
  short : ∀ part ∈ lost, part.length < skip
  within : lost.length ≤ replies.length
  failed : ∀ reply ∈ replies.take lost.length, ∃ error, reply = .error error

theorem Shifts.concat (shifts : Shifts data skip replies lost) (reply : Except IoError Bytes) :
    Shifts data skip (replies ++ [reply]) lost where
  front := shifts.front
  short := shifts.short
  within := by
    rw [List.length_append]
    exact Nat.le_add_right_of_le shifts.within
  failed := by
    rw [List.take_append_of_le_length shifts.within]
    exact shifts.failed

/-- A window that has only failed so far: its source is behind the bytes that were lost, and all is
still to be skipped. -/
structure Before (data : Bytes) (skip limit : Nat) (replies : List (Except IoError Bytes))
    (lost : List Bytes) (window : Window ρ) : Prop where
  shifts : Shifts data skip replies lost
  all : replies.length = lost.length
  skip_eq : window.skip = skip
  remaining_eq : window.remaining = limit
  rest : ∃ rest, Source.SuppliesAmidErrors window.inner rest ∧ data = lost.flatten ++ rest

/-- A window that its source has come to: what it has delivered and what it will still show are the
bytes behind those skipped and lost. -/
structure Reached (data : Bytes) (skip limit : Nat) (replies : List (Except IoError Bytes))
    (lost : List Bytes) (window : Window ρ) : Prop where
  shifts : Shifts data skip replies lost
  skip_eq : window.skip = 0
  left : ∃ rest, Source.SuppliesAmidErrors window.inner rest ∧
    Source.delivered replies ++ rest.take window.remaining =
      (data.drop (skip + lost.flatten.length)).take limit ∧
    (.ok [] ∈ replies → rest.take window.remaining = [])

theorem Before.start {source : ρ} (supplies : Source.SuppliesAmidErrors source data)
    (skip limit : Nat) : Before data skip limit [] [] (create source skip limit) where
  shifts := ⟨List.nil_prefix, List.forall_mem_nil _, Nat.le_refl 0, List.forall_mem_nil _⟩
  all := rfl
  skip_eq := rfl
  remaining_eq := rfl
  rest := ⟨data, supplies, rfl⟩

theorem Before.delivered_eq_nil (before : Before data skip limit replies lost window) :
    Source.delivered replies = [] ∧ .ok [] ∉ replies := by
  have failed := before.shifts.failed
  rw [← before.all, List.take_length] at failed
  constructor
  · apply List.flatMap_eq_nil_iff.mpr
    intro reply member
    obtain ⟨error, rfl⟩ := failed reply member
    rfl
  · intro member
    obtain ⟨error, same⟩ := failed _ member
    cases same

/-- A failed skip loses the bytes that it has passed. -/
theorem Before.lose (before : Before data skip limit replies lost window) {part rest : Bytes}
    {source : ρ} (split : data = lost.flatten ++ (part ++ rest))
    (supplies : Source.SuppliesAmidErrors source rest) (short : part.length < skip)
    (error : IoError) :
    Before data skip limit (replies ++ [.error error]) (lost ++ [part])
      { window with inner := source } where
  shifts := by
    have failed := before.shifts.failed
    rw [← before.all, List.take_length] at failed
    refine ⟨⟨rest, by simp [split]⟩, fun other member => ?_, by simp [before.all],
      fun reply member => ?_⟩
    · rcases List.mem_append.mp member with earlier | this
      · exact before.shifts.short other earlier
      · cases List.mem_singleton.mp this
        exact short
    · rcases List.mem_append.mp (List.mem_of_mem_take member) with earlier | this
      · exact failed reply earlier
      · exact ⟨error, List.mem_singleton.mp this⟩
  all := by simp [before.all]
  skip_eq := before.skip_eq
  remaining_eq := before.remaining_eq
  rest := ⟨rest, supplies, by simpa using split⟩

/-- With as many bytes skipped as it asks for, or all that there are, a window has been reached. -/
theorem Before.reach (before : Before data skip limit replies lost window) {part rest : Bytes}
    {source : ρ} (split : data = lost.flatten ++ (part ++ rest))
    (supplies : Source.SuppliesAmidErrors source rest) (within : part.length ≤ skip)
    (short : part.length < skip → rest = []) :
    Reached data skip limit replies lost
      ⟨source, 0, if part.length < skip then 0 else limit⟩ where
  shifts := before.shifts
  skip_eq := rfl
  left := by
    obtain ⟨none, absent⟩ := before.delivered_eq_nil
    refine ⟨rest, supplies, ?_, fun member => absurd member absent⟩
    rw [none, List.nil_append, Nat.add_comm, ← List.drop_drop, split, List.drop_left]
    by_cases less : part.length < skip
    · rw [short less, List.append_nil, List.drop_of_length_le within, List.take_nil, List.take_nil]
    · have exact : part.length = skip := Nat.le_antisymm within (Nat.le_of_not_lt less)
      rw [if_neg less, ← exact, List.drop_left]

/-- Going to the start of the window comes back: it fails and loses what it has passed, or the window
has been reached. -/
theorem Before.discard (before : Before data skip limit replies lost window) :
    (∃ cause part next, window.discard = .ok (.error cause, next) ∧
      Before data skip limit (replies ++ [.error cause.toIo]) (lost ++ [part]) next) ∨
    ∃ next, window.discard = .ok (.ok (), next) ∧ Reached data skip limit replies lost next := by
  obtain ⟨behind, supplies, view⟩ := before.rest
  unfold Window.discard
  obtain ⟨inner, count, remaining⟩ := window
  obtain rfl : count = skip := before.skip_eq
  obtain rfl : remaining = limit := before.remaining_eq
  by_cases none : count = 0
  · rw [if_pos none]
    have split : data = lost.flatten ++ ([] ++ behind) := view
    have reached := before.reach split supplies (Nat.zero_le _) fun less => by omega
    rw [if_neg (by simp [none])] at reached
    subst none
    exact .inr ⟨_, rfl, reached⟩
  · rw [if_neg none]
    obtain ⟨reply, part, rest, source, skipping, rfl, after, skips, fails⟩ :=
      Source.SuppliesAmid.skip supplies count
    dsimp only
    rw [skipping, Checked.ok_bind]
    cases reply with
    | error cause =>
      exact .inl ⟨cause, _, _, rfl, before.lose view after (fails cause rfl).2 cause.toIo⟩
    | ok skipped =>
      obtain ⟨rfl, within, short⟩ := skips skipped rfl
      exact .inr ⟨_, rfl, before.reach view after within short⟩

/-- A read inside a window comes back, and shows the bytes that come next. -/
theorem Reached.readInside (reached : Reached data skip limit replies lost window) {room : Nat}
    (positive : 0 < room) :
    ∃ reply next, window.readInside room = .ok (reply, next) ∧
      Reached data skip limit (replies ++ [reply]) lost next := by
  obtain ⟨rest, supplies, view, ended⟩ := reached.left
  unfold Window.readInside
  by_cases done : window.remaining = 0
  · rw [if_pos done]
    refine ⟨_, _, rfl, reached.shifts.concat _, reached.skip_eq, rest, supplies, ?_, fun _ => ?_⟩
    · rw [Source.delivered_concat]
      exact (congrArg (· ++ _) (List.append_nil _)).trans view
    · rw [done, List.take_zero]
  · rw [if_neg done]
    rcases supplies.read (min room window.remaining) with
      ⟨part, behind, source, call, rfl, progress, after⟩ | ⟨error, source, call, _, after⟩
    · have bound := Source.length_le_room call
      rw [call, Checked.ok_bind]
      dsimp only
      rw [Checked.sub_eq_ok (by omega), Checked.ok_bind]
      -- The part comes from the front of what the window still shows.
      rw [List.take_append, List.take_of_length_le (by omega)] at view ended
      refine ⟨_, _, rfl, reached.shifts.concat _, reached.skip_eq, behind, after, ?_, fun member => ?_⟩
      · rw [Source.delivered_concat, List.append_assoc]
        exact view
      · rcases List.mem_append.mp member with earlier | this
        · exact (List.append_eq_nil_iff.mp (ended earlier)).2
        · cases List.mem_singleton.mp this
          rcases progress rfl with full | nothing
          · omega
          · rw [(List.append_eq_nil_iff.mp nothing).2, List.take_nil]
    · rw [call, Checked.ok_bind]
      refine ⟨_, _, rfl, reached.shifts.concat _, reached.skip_eq, rest, after, ?_, fun member => ?_⟩
      · rw [Source.delivered_concat]
        exact (congrArg (· ++ _) (List.append_nil _)).trans view
      · exact ended (by simpa using member)

/-- A window on its way or already reached. -/
def Account (data : Bytes) (skip limit : Nat) (replies : List (Except IoError Bytes))
    (lost : List Bytes) (window : Window ρ) : Prop :=
  Before data skip limit replies lost window ∨ Reached data skip limit replies lost window

namespace Account

/-- A read with room comes back, whatever its source does. -/
theorem read (account : Account data skip limit replies lost window) {room : Nat}
    (positive : 0 < room) :
    ∃ reply next more, window.read room = .ok (reply, next) ∧
      Account data skip limit (replies ++ [reply]) (lost ++ more) next := by
  unfold Window.read
  rcases account with before | reached
  · rcases before.discard with ⟨cause, part, next, discarding, after⟩ | ⟨middle, discarding, reached⟩
    · rw [discarding]
      exact ⟨_, _, [part], rfl, .inl after⟩
    · obtain ⟨reply, next, reading, after⟩ := reached.readInside positive
      rw [discarding, Checked.ok_bind]
      exact ⟨reply, next, [], reading, .inr (by simpa using after)⟩
  · have discarding : window.discard = .ok (.ok (), window) := if_pos reached.skip_eq
    obtain ⟨reply, next, reading, after⟩ := reached.readInside positive
    rw [discarding, Checked.ok_bind]
    exact ⟨reply, next, [], reading, .inr (by simpa using after)⟩

/-- Every row of reads with room comes back. -/
theorem readEach (account : Account data skip limit replies lost window) (rooms : List Nat)
    (positive : ∀ room ∈ rooms, 0 < room) :
    ∃ others last more, Source.readEach window rooms = .ok (others, last) ∧
      Account data skip limit (replies ++ others) (lost ++ more) last := by
  -- The induction is on the reads; replies and losses grow by those of the first one.
  induction rooms generalizing window replies lost with
  | nil => exact ⟨[], window, [], rfl, by simpa using account⟩
  | cons room rooms ih =>
    obtain ⟨first, others⟩ := List.forall_mem_cons.mp positive
    obtain ⟨reply, next, more, call, after⟩ := account.read first
    obtain ⟨rest, last, further, run, final⟩ := ih after others
    refine ⟨reply :: rest, last, more ++ further, ?_, by simpa using final⟩
    have step : Source.read window room = .ok (reply, next) := call
    rw [Source.readEach, step, Checked.ok_bind]
    dsimp only
    rw [run]
    rfl

theorem shifts (account : Account data skip limit replies lost window) :
    Shifts data skip replies lost := by
  rcases account with before | reached
  · exact before.shifts
  · exact reached.shifts

/-- What was delivered is a front part of the bytes behind those skipped and lost, and all of them at
the end. -/
theorem delivered_prefix (account : Account data skip limit replies lost window) :
    Source.delivered replies <+: (data.drop (skip + lost.flatten.length)).take limit ∧
      (.ok [] ∈ replies →
        Source.delivered replies = (data.drop (skip + lost.flatten.length)).take limit) := by
  rcases account with before | reached
  · obtain ⟨none, absent⟩ := before.delivered_eq_nil
    rw [none]
    exact ⟨List.nil_prefix, fun member => absurd member absent⟩
  · obtain ⟨rest, _, view, ended⟩ := reached.left
    refine ⟨⟨_, view⟩, fun member => ?_⟩
    rw [← view, ended member, List.append_nil]

end Account

/-- However a caller reads on, with buffers that are not empty, a window shows the bytes behind those
skipped, less those that were passed when a read of the source failed on the way to its start. Each
such failure is a reply of its own, before all others, and passes fewer bytes than are to be skipped.
The window shows what it was made for if nothing had been passed at any of these failures. -/
theorem shows_amid_errors {source : ρ} (supplies : Source.SuppliesAmidErrors source data)
    (skip limit : Nat) (rooms : List Nat) (positive : ∀ room ∈ rooms, 0 < room) :
    ∃ replies last, ∃ lost : List Bytes,
      Source.readEach (create source skip limit) rooms = .ok (replies, last) ∧
      Shifts data skip replies lost ∧
      Source.delivered replies <+: (data.drop (skip + lost.flatten.length)).take limit ∧
      (.ok [] ∈ replies →
        Source.delivered replies = (data.drop (skip + lost.flatten.length)).take limit) ∧
      ((∀ part ∈ lost, part = []) →
        Source.delivered replies <+: (data.drop skip).take limit ∧
          (.ok [] ∈ replies → Source.delivered replies = (data.drop skip).take limit)) := by
  have start : Account data skip limit [] [] (create source skip limit) :=
    .inl (Before.start supplies skip limit)
  obtain ⟨replies, last, lost, run, account⟩ := start.readEach rooms positive
  rw [List.nil_append, List.nil_append] at account
  obtain ⟨front, all⟩ := account.delivered_prefix
  refine ⟨replies, last, lost, run, account.shifts, front, all, fun nothing => ?_⟩
  rw [List.flatten_eq_nil_iff.mpr nothing, List.length_nil, Nat.add_zero] at front all
  exact ⟨front, all⟩

/-- Ten bytes from a feed that fails behind the first two of three to be skipped: the window shows the
four bytes from the sixth on. -/
theorem shows_sixth_byte_on :
    let feed : Feed := ⟨[0, 1, 2, 3, 4, 5, 6, 7, 8, 9], [.limit 2, .fail (.bare .other)]⟩
    ∃ replies last, ∃ lost : List Bytes,
      Source.readEach (create feed 3 4) [8, 3, 8, 8] = .ok (replies, last) ∧
      Shifts feed.bytes 3 replies lost ∧ Source.failures replies = [.bare .other] ∧
      Source.delivered replies = (feed.bytes.drop (3 + lost.flatten.length)).take 4 ∧
      Source.delivered replies = [5, 6, 7, 8] := by
  intro feed
  have supplies : Source.SuppliesAmidErrors feed feed.bytes := Feed.suppliesAmidErrors (by decide)
  obtain ⟨replies, last, lost, run, shifts, _, all, _⟩ :=
    shows_amid_errors supplies 3 4 [8, 3, 8, 8] (by decide)
  have known : (Source.readEach (create feed 3 4) [8, 3, 8, 8]).toOption.map (fun (replies, _) =>
      (Source.delivered replies, Source.failures replies, replies.map Except.toOption)) =
        some ([5, 6, 7, 8], [.bare .other], [none, some [5, 6, 7], some [8], some []]) := by
    decide +kernel
  rw [run] at known
  have same := Option.some.inj known
  rw [Prod.mk.injEq, Prod.mk.injEq] at same
  obtain ⟨delivered, failures, each⟩ := same
  have ended : .ok [] ∈ replies := Source.ok_mem_of_map (by simp [each])
  exact ⟨replies, last, lost, run, shifts, failures, all ended, delivered⟩

/-- Four bytes from a feed that fails behind the first of two to be skipped: the window shows the
fourth byte, where it should show the third. -/
theorem fourth_byte_for_third :
    let feed : Feed := ⟨[1, 2, 3, 4], [.limit 1, .fail (.bare .other)]⟩
    Source.SuppliesAmidErrors feed feed.bytes ∧
    (Source.readEach (create feed 2 1) [8, 8, 8]).toOption.map
      (fun result => result.1.map Except.toOption) = some [none, some [4], some []] ∧
    ¬ [4] <+: (feed.bytes.drop 2).take 1 := by
  intro feed
  exact ⟨Feed.suppliesAmidErrors (by decide), by decide +kernel, by decide⟩

end Window

end SealedStream
