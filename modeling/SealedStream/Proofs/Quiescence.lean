import SealedStream.Proofs.Halting
import SealedStream.Proofs.StreamDecoding

/-!
# Readers that have failed

A decoder reports its first error only when it has handed out all that the frames before bring, and
then it is silent: every later read repeats an error of the same kind, hands out nothing and asks
nothing of the source. Both decoders keep an account of the frames that they take from their source
(`SizedDecoder.halts`, `StreamDecoder.halts`), and a window keeps one if the reader behind it does
(`Window.halts`), although it starts its skipping again after an error. The result for all the readers
is `failed_readers_are_silent`.
-/
namespace SealedStream

open Layout

/-! ### Decoders -/

/-- What was gathered for a frame is no good because a read failed or the source ended, or because of
what is in it. -/
theorem Gathered.source_of_opened {gathered : Gathered} {need : Nat} {cause : FinalError}
    (bad : gathered.opened need = .error (.source cause)) :
    gathered.failure = some cause ∨ cause = .unexpectedEof := by
  unfold opened outcome at bad
  cases failed : gathered.failure with
  | some error =>
    rw [failed] at bad
    cases bad
    exact .inl rfl
  | none =>
    rw [failed] at bad
    dsimp only at bad
    split at bad
    next _ short =>
      split at short <;> cases short
      cases bad
      exact .inr rfl
    next =>
      cases frame : Image.openFrame gathered.bytes <;> rw [frame] at bad <;> cases bad

theorem Gathered.source_of_framed {gathered : Gathered} {cause : FinalError}
    (bad : gathered.framed = .error (.source cause)) : gathered.failure = some cause := by
  unfold framed at bad
  split at bad
  next failed =>
    cases bad
    exact failed
  next =>
    unfold Frames.outcome at bad
    split at bad
    · cases bad
    · split at bad <;> cases bad

namespace SizedDecoder

variable {ρ : Type}

/-- A decoder that remembers an error repeats it, whatever source is behind it. -/
theorem silent [Source ρ] {decoder : SizedDecoder ρ} {sticky : Sticky} (idle : decoder.pending = [])
    (failed : decoder.sticky = some sticky) : Source.Silent decoder sticky.toIo :=
  read_of_sticky idle failed

variable [Source ρ] {source : ρ} {size : Nat} {delivered : Bytes} {decoder next : SizedDecoder ρ}

theorem responds (source_responds : Source.Responds source) (size : Nat) (scratch : Scratch) :
    Source.Responds (create source size scratch) := by
  obtain ⟨Inv, inv, reads⟩ := source_responds
  exact ⟨_, inv, answers reads⟩

/-- What fetching on from its source brings comes behind the bytes that the decoder has handed out and
those that wait. -/
structure Open (source : ρ) (size : Nat) (delivered : Bytes) (decoder : SizedDecoder ρ) : Prop where
  healthy : decoder.sticky = none
  reached : Source.ReadsTo source decoder.source
  account : ∀ {rest failure}, Fetches decoder.source decoder.remaining rest failure →
    Fetches source size (delivered ++ decoder.pending ++ rest) failure

/-- The decoder has handed out all that fetching from its source brings up to the error that it
remembers. -/
structure Ended (source : ρ) (size : Nat) (delivered : Bytes) (error : DecodeError)
    (decoder : SizedDecoder ρ) : Prop where
  idle : decoder.pending = []
  failed : decoder.sticky = some (.ofError error)
  account : Fetches source size delivered (some error.toFinal)
  reported : ∀ {cause}, error = .source cause →
    Source.Reports source cause.toIo ∨ cause = .unexpectedEof

theorem Open.start (source : ρ) (size : Nat) (scratch : Scratch) :
    Open source size [] (create source size scratch) where
  healthy := rfl
  reached := .still source
  account fetches := fetches

theorem Open.hand (opened : Open source size delivered decoder) (room : Nat) :
    Open source size (delivered ++ (decoder.hand room).1) (decoder.hand room).2 where
  healthy := opened.healthy
  reached := opened.reached
  account := by
    rw [SizedDecoder.hand, List.append_assoc delivered, List.take_append_drop]
    exact opened.account

/-- The payload of a frame that was taken from the source comes next. -/
theorem Open.load (opened : Open source size delivered decoder) (idle : decoder.pending = [])
    (wanting : decoder.remaining ≠ 0) {need : Nat} {gathered : Gathered} {after : ρ} {payload : Bytes}
    (limited : min (decoder.remaining + headerLength) chunkLength = need)
    (gathering : Source.gather decoder.source need chunkLength = .ok (gathered, after))
    (good : gathered.opened need = .ok payload) (scratch : Scratch) :
    Open source size delivered
      { decoder with
        source := after
        scratch
        pending := payload.take decoder.remaining
        remaining := decoder.remaining - payload.length } where
  healthy := opened.healthy
  reached := opened.reached.gather gathering
  account behind := by
    have account := opened.account (.loaded wanting limited gathering good behind)
    rwa [idle, List.append_nil, ← List.append_assoc] at account

/-- A frame that is no good comes when everything before it was handed out. -/
theorem Open.fail (opened : Open source size delivered decoder) (idle : decoder.pending = [])
    (wanting : decoder.remaining ≠ 0) {need : Nat} {gathered : Gathered} {after : ρ}
    {error : DecodeError} (limited : min (decoder.remaining + headerLength) chunkLength = need)
    (gathering : Source.gather decoder.source need chunkLength = .ok (gathered, after))
    (bad : gathered.opened need = .error error) (scratch : Scratch) :
    Ended source size delivered error
      { decoder with source := after, scratch, sticky := some (.ofError error) } where
  idle := idle
  failed := rfl
  account := by
    have account := opened.account (.stopped wanting limited gathering bad)
    rwa [idle, List.append_nil, List.append_nil] at account
  reported := by
    rintro cause rfl
    exact (Gathered.source_of_opened bad).imp_left (opened.reached.reports_of_gather gathering)

/-- A read that comes back, of a decoder that has nothing to hand out, has fetched. -/
theorem fetch_of_read {room : Nat} {reply : Except IoError Bytes} (idle : decoder.pending = [])
    (healthy : decoder.sticky = none) (wanting : decoder.remaining ≠ 0)
    (call : decoder.read room = .ok (reply, next)) : ∃ result, decoder.fetch = .ok result := by
  rw [SizedDecoder.read, if_neg (not_not_intro idle), healthy] at call
  dsimp only at call
  rw [if_neg wanting] at call
  obtain ⟨result, fetching, _⟩ := Checked.bind_eq_ok_iff.mp call
  exact ⟨result, fetching⟩

/-- A fetch that comes back has gathered a frame, which opens or does not. -/
theorem fetch_eq_ok {reply : Except DecodeError Nat} (run : decoder.fetch = .ok (reply, next)) :
    ∃ gathered after scratch,
      Source.gather decoder.source (min (decoder.remaining + headerLength) chunkLength) chunkLength =
        .ok (gathered, after) ∧
      ((∃ error, gathered.opened (min (decoder.remaining + headerLength) chunkLength) =
          .error error ∧ reply = .error error ∧
          next = { decoder with source := after, scratch, sticky := some (.ofError error) }) ∨
        ∃ payload count, gathered.opened (min (decoder.remaining + headerLength) chunkLength) =
          .ok payload ∧ reply = .ok count ∧
          next = { decoder with
            source := after
            scratch
            pending := payload.take decoder.remaining
            remaining := decoder.remaining - payload.length }) := by
  obtain ⟨⟨answer, middle⟩, loading, _⟩ := Checked.bind_eq_ok_iff.mp run
  obtain ⟨⟨gathered, after⟩, gathering, _⟩ := Checked.bind_eq_ok_iff.mp loading
  obtain ⟨scratch, _, _, loaded⟩ := decoder.load_of_gather rfl gathering
  refine ⟨gathered, after, scratch, gathering, ?_⟩
  cases opened : gathered.opened (min (decoder.remaining + headerLength) chunkLength) with
  | error error =>
    rw [opened] at loaded
    cases run.symm.trans (fetch_of_error loaded)
    exact .inl ⟨error, rfl, rfl, rfl⟩
  | ok payload =>
    rw [opened] at loaded
    cases run.symm.trans (fetch_of_ok loaded)
    exact .inr ⟨payload, _, rfl, rfl, rfl⟩

/-- A read keeps the account, or it is the first that fails and finds everything handed out. -/
theorem halts (source : ρ) (size : Nat) :
    Source.Halts (Open source size) (Ended source size) where
  silent ended := silent ended.idle ended.failed
  read {delivered decoder next room reply} opened call := by
    replace call : decoder.read room = .ok (reply, next) := call
    by_cases idle : decoder.pending = []
    · have healthy := opened.healthy
      by_cases done : decoder.remaining = 0
      · cases call.symm.trans (read_of_done idle healthy done room)
        exact .inl ⟨[], rfl, by rwa [List.append_nil]⟩
      · obtain ⟨⟨answer, loaded⟩, fetching⟩ := fetch_of_read idle healthy done call
        obtain ⟨gathered, after, scratch, gathering, fetched⟩ := fetch_eq_ok fetching
        rcases fetched with ⟨error, bad, rfl, rfl⟩ | ⟨payload, count, good, rfl, rfl⟩
        · cases call.symm.trans (read_of_failed idle healthy done fetching room)
          exact .inr ⟨error, rfl, opened.fail idle done rfl gathering bad scratch⟩
        · cases call.symm.trans (read_of_fetched idle healthy done fetching room)
          exact .inl ⟨_, rfl, (opened.load idle done rfl gathering good scratch).hand room⟩
    · cases call.symm.trans (read_of_waiting idle room)
      exact .inl ⟨_, rfl, opened.hand room⟩

end SizedDecoder

namespace StreamDecoder

variable {ρ : Type}

/-- The decoder once its source has been read for a frame. -/
def advance (decoder : StreamDecoder ρ) (frames : Frames ρ) :
    Except DecodeError (Option (Checksum × Bytes)) → Except DecodeError Unit × StreamDecoder ρ
  | .error error => (.error error, { decoder with frames, sticky := some (.ofError error) })
  | .ok none => (.ok (), { decoder with frames, finished := true })
  | .ok (some (_, pending)) => (.ok (), { decoder with frames, pending })

variable [Source ρ] {source : ρ} {delivered : Bytes} {decoder next : StreamDecoder ρ}

theorem silent {sticky : Sticky} (idle : decoder.pending = [])
    (failed : decoder.sticky = some sticky) : Source.Silent decoder sticky.toIo := by
  intro room
  show decoder.read room = _
  simp [read, idle, failed, pure, Except.pure]

theorem fetch_of_gather {gathered : Gathered} {after : ρ}
    (gathering : Source.readFull decoder.frames.source chunkLength = .ok (gathered, after)) :
    ∃ scratch, decoder.fetch = .ok (decoder.advance ⟨after, scratch⟩ gathered.framed) := by
  obtain ⟨scratch, run⟩ := decoder.frames.next_of_gather gathering
  refine ⟨scratch, ?_⟩
  rw [fetch, run, Checked.ok_bind]
  rcases gathered.framed with error | none | ⟨sum, payload⟩ <;> rfl

/-- What comes of a source that is read for one frame after the other until it ends or a frame is no
good: the bytes that the frames bring, and why no more come. -/
inductive Fetches : ρ → Bytes → Option FinalError → Prop
  | ended {source next : ρ} {gathered : Gathered}
      (gathering : Source.readFull source chunkLength = .ok (gathered, next))
      (nothing : gathered.framed = .ok none) : Fetches source [] none
  | stopped {source next : ρ} {gathered : Gathered} {error : DecodeError}
      (gathering : Source.readFull source chunkLength = .ok (gathered, next))
      (bad : gathered.framed = .error error) : Fetches source [] (some error.toFinal)
  | loaded {source next : ρ} {gathered : Gathered} {sum : Checksum} {payload rest : Bytes}
      {failure : Option FinalError}
      (gathering : Source.readFull source chunkLength = .ok (gathered, next))
      (good : gathered.framed = .ok (some (sum, payload))) (behind : Fetches next rest failure) :
      Fetches source (payload ++ rest) failure

/-- Until the source has ended, what fetching on from it brings comes behind the bytes that the
decoder has handed out and those that wait. -/
structure Open (source : ρ) (delivered : Bytes) (decoder : StreamDecoder ρ) : Prop where
  healthy : decoder.sticky = none
  reached : Source.ReadsTo source decoder.frames.source
  account : decoder.finished = false → ∀ {rest failure}, Fetches decoder.frames.source rest failure →
    Fetches source (delivered ++ decoder.pending ++ rest) failure

/-- The decoder has handed out all that fetching from its source brings up to the error that it
remembers. -/
structure Ended (source : ρ) (delivered : Bytes) (error : DecodeError) (decoder : StreamDecoder ρ) :
    Prop where
  idle : decoder.pending = []
  failed : decoder.sticky = some (.ofError error)
  account : Fetches source delivered (some error.toFinal)
  reported : ∀ {cause}, error = .source cause → Source.Reports source cause.toIo

theorem Open.start (source : ρ) (scratch : Scratch) : Open source [] (create source scratch) where
  healthy := rfl
  reached := .still source
  account _ _ _ fetches := fetches

theorem Open.hand (opened : Open source delivered decoder) (room : Nat) :
    Open source (delivered ++ (decoder.hand room).1) (decoder.hand room).2 where
  healthy := opened.healthy
  reached := opened.reached
  account := by
    rw [StreamDecoder.hand, List.append_assoc delivered, List.take_append_drop]
    exact opened.account

/-- A read that fetches keeps the account, or the fetch fails when everything was handed out. -/
theorem Open.fetch (opened : Open source delivered decoder) (idle : decoder.pending = [])
    (unfinished : decoder.finished = false) {reply : Except DecodeError Unit}
    (run : decoder.fetch = .ok (reply, next)) :
    (reply = .ok () ∧ Open source delivered next) ∨
      ∃ error, reply = .error error ∧ Ended source delivered error next := by
  have account {rest failure} (behind : Fetches decoder.frames.source rest failure) :
      Fetches source (delivered ++ rest) failure := by
    have whole := opened.account unfinished behind
    rwa [idle, List.append_nil] at whole
  obtain ⟨⟨_, _⟩, step, _⟩ := Checked.bind_eq_ok_iff.mp run
  obtain ⟨⟨gathered, after⟩, gathering, _⟩ := Checked.bind_eq_ok_iff.mp step
  obtain ⟨scratch, fetched⟩ := fetch_of_gather gathering
  have reached := opened.reached.gather gathering
  cases framed : gathered.framed with
  | error error =>
    rw [framed] at fetched
    cases run.symm.trans fetched
    refine .inr ⟨error, rfl, idle, rfl, ?_, ?_⟩
    · simpa using account (.stopped gathering framed)
    · rintro cause rfl
      exact opened.reached.reports_of_gather gathering (Gathered.source_of_framed framed)
  | ok frame =>
    rw [framed] at fetched
    cases frame with
    | none =>
      cases run.symm.trans fetched
      exact .inl ⟨rfl, opened.healthy, reached, fun finished => nomatch finished⟩
    | some frame =>
      cases run.symm.trans fetched
      refine .inl ⟨rfl, opened.healthy, reached, ?_⟩
      intro _ rest failure behind
      rw [List.append_assoc]
      exact account (.loaded gathering framed behind)

/-- A read keeps the account, or it is the first that fails and finds everything handed out. -/
theorem halts (source : ρ) : Source.Halts (Open source) (Ended source) where
  silent ended := silent ended.idle ended.failed
  read {delivered decoder next room reply} opened call := by
    replace call : decoder.read room = .ok (reply, next) := call
    have healthy := opened.healthy
    rw [StreamDecoder.read, healthy] at call
    by_cases idle : decoder.pending = []
    · rw [if_neg (not_not_intro idle)] at call
      dsimp only at call
      cases finished : decoder.finished with
      | true =>
        rw [finished, if_pos rfl] at call
        cases call
        exact .inl ⟨[], rfl, by rwa [List.append_nil]⟩
      | false =>
        rw [finished, if_neg Bool.false_ne_true] at call
        obtain ⟨⟨answer, loaded⟩, fetching, call⟩ := Checked.bind_eq_ok_iff.mp call
        rcases opened.fetch idle finished fetching with ⟨rfl, after⟩ | ⟨error, rfl, ended⟩
        · cases call
          exact .inl ⟨_, rfl, after.hand room⟩
        · cases call
          exact .inr ⟨error, rfl, ended⟩
    · rw [if_pos idle] at call
      cases call
      exact .inl ⟨_, rfl, opened.hand room⟩

theorem answers {Inv : ρ → Prop} (reads : Source.Answers Inv) :
    Source.Answers fun decoder : StreamDecoder ρ => Inv decoder.frames.source := by
  intro decoder room start
  show (decoder.read room).Returns _
  unfold read
  split
  · exact .pure start
  · split
    · exact .pure start
    · split
      · exact .pure start
      · obtain ⟨⟨gathered, after⟩, gathering, inv⟩ := reads.gather start chunkLength chunkLength
        obtain ⟨scratch, fetched⟩ := fetch_of_gather gathering
        rw [fetched, Checked.ok_bind]
        rcases gathered.framed with error | none | ⟨sum, payload⟩ <;> exact .pure inv

theorem responds (source_responds : Source.Responds source) (scratch : Scratch) :
    Source.Responds (create source scratch) := by
  obtain ⟨Inv, inv, reads⟩ := source_responds
  exact ⟨_, inv, answers reads⟩

end StreamDecoder

/-! ### Windows and ranges -/

namespace Window

variable {ρ : Type} [Source ρ]

/-- A window repeats the error of a silent reader while it has bytes to skip or to show. -/
theorem silent {window : Window ρ} {error : IoError} (silent : Source.Silent window.inner error)
    (final : error.kind ≠ .interrupted) (asks : window.skip ≠ 0 ∨ window.remaining ≠ 0) :
    Source.Silent window error := by
  obtain ⟨inner, skip, remaining⟩ := window
  dsimp only at silent asks
  intro room
  show read _ room = _
  by_cases none : skip = 0
  · have some := asks.resolve_left (not_not_intro none)
    simp [read, discard, none, readInside, some, silent (min room remaining), pure, Except.pure]
  · have skipping : Source.skip inner skip = .ok (.error ⟨error, final⟩, inner) := by
      rw [Source.skip, if_neg none]
      split
      next other => cases other.symm.trans (silent _)
      next other => cases other.symm.trans (silent _)
      next other =>
        cases other.symm.trans (silent _)
        exact dif_neg final
    simp [read, discard, none, skipping, pure, Except.pure]
    rfl

section

variable (Behind : Bytes → ρ → Prop) (Stopped : Bytes → DecodeError → ρ → Prop) (skip limit : Nat)

/-- A window that has been started shows what its reader has handed out behind the bytes that are
skipped. -/
structure Inside (delivered : Bytes) (window : Window ρ) : Prop where
  started : window.skip = 0
  account : ∃ whole, Behind whole window.inner ∧ (window.remaining ≠ 0 →
    skip ≤ whole.length ∧ delivered = whole.drop skip ∧ delivered.length + window.remaining = limit)

inductive Open : Bytes → Window ρ → Prop
  | before {inner : ρ} (account : Behind [] inner) : Open [] ⟨inner, skip, limit⟩
  | inside {delivered : Bytes} {window : Window ρ} (account : Inside Behind skip limit delivered window) :
      Open delivered window

/-- The window has shown all that its reader has handed out and that lies in it. -/
structure Ended (delivered : Bytes) (error : DecodeError) (window : Window ρ) : Prop where
  account : ∃ whole, Stopped whole error window.inner ∧ delivered = (whole.drop skip).take limit
  asks : window.skip ≠ 0 ∨ window.remaining ≠ 0

end

section

variable {Behind : Bytes → ρ → Prop} {Stopped : Bytes → DecodeError → ρ → Prop}
  (inner : Source.Halts Behind Stopped) {skip limit : Nat} {delivered : Bytes} {window next : Window ρ}

include inner

/-- Skipping starts a window, or fails before the window has shown anything. -/
theorem Open.discard (opened : Open Behind skip limit delivered window)
    {reply : Except FinalError Unit} (run : window.discard = .ok (reply, next)) :
    (reply = .ok () ∧ Inside Behind skip limit delivered next) ∨
      ∃ error, reply = .error error.toFinal ∧ Ended Stopped skip limit delivered error next := by
  unfold Window.discard at run
  cases opened with
  | inside account =>
    rw [if_pos account.started] at run
    cases run
    exact .inl ⟨rfl, account⟩
  | @before reader account =>
    dsimp only at run
    split at run
    next none =>
      cases run
      exact .inl ⟨rfl, none, [], account, fun _ => ⟨Nat.le_of_eq none, by simp, Nat.zero_add _⟩⟩
    next some =>
      obtain ⟨⟨answer, last⟩, skipping, run⟩ := Checked.bind_eq_ok_iff.mp run
      obtain ⟨passed, within, ⟨rfl, after⟩ | ⟨error, rfl, less, ended⟩⟩ :=
        inner.skip account skipping
      · -- A reader that ends before the window leaves nothing to show.
        cases run
        refine .inl ⟨rfl, rfl, passed, after, fun left => ?_⟩
        have far : skip ≤ passed.length := Nat.le_of_not_lt fun near => left (if_pos near)
        refine ⟨far, (List.drop_of_length_le within).symm, ?_⟩
        dsimp only
        rw [if_neg (Nat.not_lt_of_le far), List.length_nil, Nat.zero_add]
      · cases run
        refine .inr ⟨error, rfl, ⟨passed, ended, ?_⟩, .inl some⟩
        rw [List.drop_of_length_le within, List.take_nil]

/-- A read of a window that was started shows what its reader hands out, or fails with it. -/
theorem Inside.read (account : Inside Behind skip limit delivered window) {room : Nat}
    {reply : Except IoError Bytes} (run : window.readInside room = .ok (reply, next)) :
    (∃ part, reply = .ok part ∧ Inside Behind skip limit (delivered ++ part) next) ∨
      ∃ error, reply = .error error.toIo ∧ Ended Stopped skip limit delivered error next := by
  obtain ⟨started, whole, opened, shown⟩ := account
  unfold Window.readInside at run
  split at run
  next none =>
    cases run
    exact .inl ⟨[], rfl, started, whole, opened, fun some => absurd none some⟩
  next some =>
    obtain ⟨far, rfl, length⟩ := shown some
    obtain ⟨⟨answer, last⟩, call, run⟩ := Checked.bind_eq_ok_iff.mp run
    rcases inner.read opened call with ⟨part, rfl, after⟩ | ⟨error, rfl, ended⟩
    · obtain ⟨remaining, left, run⟩ := Checked.bind_eq_ok_iff.mp run
      obtain ⟨within, rfl⟩ := Checked.sub_eq_ok_iff.mp left
      cases run
      refine .inl ⟨part, rfl, started, whole ++ part, after, fun _ => ⟨?_, ?_, ?_⟩⟩
      · rw [List.length_append]
        omega
      · rw [List.drop_append_of_le_length far]
      · rw [List.length_append]
        dsimp only
        omega
    · cases run
      refine .inr ⟨error, rfl, ⟨whole, ended, ?_⟩, .inr some⟩
      rw [List.take_of_length_le (by omega)]

/-- A window on a reader that halts does so as well. -/
theorem halts (skip limit : Nat) :
    Source.Halts (Open Behind skip limit) (Ended Stopped skip limit) where
  silent {delivered error window} ended := by
    obtain ⟨whole, account, _⟩ := ended.account
    have final := (Sticky.ofError error).kind_ne
    exact silent (inner.silent account) final ended.asks
  read {delivered window next room reply} opened call := by
    obtain ⟨⟨answer, middle⟩, discarding, run⟩ := Checked.bind_eq_ok_iff.mp call
    rcases opened.discard inner discarding with ⟨rfl, account⟩ | ⟨error, rfl, ended⟩
    · exact (account.read inner run).imp_left fun ⟨part, same, after⟩ => ⟨part, same, .inside after⟩
    · cases run
      exact .inr ⟨error, rfl, ended⟩

end

end Window

/-- The frames bring no more bytes than the declared size. -/
theorem SizedDecoder.Fetches.length_le {ρ : Type} [Source ρ] {source : ρ} {size : Nat} {bytes : Bytes}
    {failure : Option FinalError} (fetches : Fetches source size bytes failure) :
    bytes.length ≤ size := by
  induction fetches with
  | done => exact Nat.le_refl _
  | stopped => exact Nat.zero_le _
  | loaded _ _ _ _ _ ih =>
    rw [List.length_append, List.length_take]
    omega

theorem Span.inBounds_create {σ : Type} (store : σ) {offset : Nat} (near : offset < offsetLimit)
    (limit : Nat) : (Span.create store offset limit).InBounds := by
  constructor <;> simp only [Span.create, offsetLimit] at * <;> omega

/-- A decoder that could be made over a store starts at the chunk of the offset and decodes the rest of
the stream. -/
theorem SizedDecoder.of_ofStore {σ : Type} {store : σ} {base start size : Nat} {scratch : Scratch}
    {decoder : SizedDecoder (Span σ)} (inside : start ≤ size)
    (opening : SizedDecoder.ofStore store base start size scratch = .ok decoder) :
    ∃ span : Span σ, span.InBounds ∧
      decoder = create span (size - payloadLength * chunkIndex start) scratch := by
  have split := offset_split start
  have rest := encodedLength_suffix start size inside
  unfold ofStore at opening
  obtain ⟨encoded, whole, opening⟩ := Checked.bind_eq_ok_iff.mp opening
  obtain ⟨extent, left, opening⟩ := Checked.bind_eq_ok_iff.mp opening
  obtain ⟨offset, place, opening⟩ := Checked.bind_eq_ok_iff.mp opening
  obtain ⟨logical, count, opening⟩ := Checked.bind_eq_ok_iff.mp opening
  obtain ⟨fits, rfl⟩ := encodedSize_eq_ok_iff.mp whole
  rw [chunkStart_eq _ (by omega)] at left place
  obtain ⟨_, rfl⟩ := Checked.sub_eq_ok_iff.mp left
  obtain ⟨near, rfl⟩ := Checked.add_eq_ok_iff.mp place
  rw [rest, Nat.add_sub_cancel_left, logicalSize_encodedLength] at count
  cases count
  cases opening
  exact ⟨_, Span.inBounds_create store near _, rfl⟩

namespace RangeReader

variable {σ : Type}

/-- A reader that could be made is a decoder of a part of the store, from the chunk of the start on,
or a window on it. -/
theorem of_create {store : σ} {base start stop size : Nat} {scratch : Scratch}
    {reader : RangeReader σ} (created : create store base start stop size scratch = .ok (.ok reader)) :
    ∃ span : Span σ, span.InBounds ∧
      ((reader = whole (.create span (size - payloadLength * chunkIndex start) scratch) ∧
          offsetInChunk start = 0 ∧ size - payloadLength * chunkIndex start ≤ stop - start) ∨
        reader = windowed (.create (.create span (size - payloadLength * chunkIndex start) scratch)
          (offsetInChunk start) (stop - start))) := by
  unfold create at created
  split at created
  next => cases created
  next ordered =>
    obtain ⟨decoder, opening, created⟩ := Checked.bind_eq_ok_iff.mp created
    obtain ⟨span, bounds, rfl⟩ := SizedDecoder.of_ofStore (by omega) opening
    refine ⟨span, bounds, ?_⟩
    have split := offset_split start
    dsimp only at created
    split at created
    next all =>
      cases created
      exact .inl ⟨rfl, all.1, by omega⟩
    next =>
      cases created
      exact .inr rfl

variable [ReadableStore σ]

/-- A reader of a range has handed out all of the range that its decoder brings up to the first
error, and asks nothing more of the store from then on. -/
theorem quiescent (responds : ReadableStore.Responds σ) {store : σ} {base start stop size : Nat}
    {scratch : Scratch} {reader : RangeReader σ}
    (created : create store base start stop size scratch = .ok (.ok reader)) :
    Source.Quiescent reader
      (fun bytes error => ∃ whole,
        SizedDecoder.Fetches reader.decoder.source reader.decoder.remaining whole (some error) ∧
          bytes = (whole.drop (offsetInChunk start)).take (stop - start))
      fun last later => ∀ _ : ReadableStore σ, Source.Silent last later := by
  obtain ⟨span, bounds, ⟨rfl, aligned, all⟩ | rfl⟩ := of_create created
  · have halts := (SizedDecoder.halts span (size - payloadLength * chunkIndex start)).wrap whole
      read_whole
    refine halts.quiescent ?_ ⟨_, rfl, .start ..⟩ ⟨_, bounds, answers responds⟩
    rintro bytes error _ ⟨last, rfl, idle, failed, account, _⟩
    refine ⟨⟨bytes, account, ?_⟩, fun _ => ?_⟩
    · have short := account.length_le
      rw [aligned, List.drop_zero, List.take_of_length_le (by omega)]
    · exact (SizedDecoder.silent idle failed).wrap whole read_whole
  · have decoding := SizedDecoder.halts span (size - payloadLength * chunkIndex start)
    have halts := (Window.halts decoding (offsetInChunk start) (stop - start)).wrap windowed
      read_windowed
    refine halts.quiescent ?_ ⟨_, rfl, .before (.start ..)⟩ ⟨_, bounds, answers responds⟩
    rintro bytes error _ ⟨last, rfl, ⟨whole, ⟨idle, failed, account, _⟩, shown⟩, asks⟩
    refine ⟨⟨whole, account, shown⟩, fun _ => ?_⟩
    have silent := SizedDecoder.silent idle failed
    exact (Window.silent silent (Sticky.kind_ne _) asks).wrap windowed read_windowed

end RangeReader

/-- No reader hands out bytes after its first error. What it has handed out up to that error is all that
the frames before bring, of a range all that lies in it. From then on every read reports an error of
the same kind and leaves everything as it is, whatever source or store there is to be asked. -/
theorem failed_readers_are_silent :
    (∀ (ρ : Type) [Source ρ] (source : ρ) (size : Nat) (scratch : Scratch), Source.Responds source →
      Source.Quiescent (SizedDecoder.create source size scratch)
        (fun bytes error => SizedDecoder.Fetches source size bytes (some error))
        fun last later => ∀ _ : Source ρ, Source.Silent last later) ∧
    (∀ (ρ : Type) [Source ρ] (source : ρ) (scratch : Scratch), Source.Responds source →
      Source.Quiescent (StreamDecoder.create source scratch)
        (fun bytes error => StreamDecoder.Fetches source bytes (some error))
        fun last later => ∀ _ : Source ρ, Source.Silent last later) ∧
    ∀ (σ : Type) [ReadableStore σ] (store : σ) (base start stop size : Nat) (scratch : Scratch)
      (reader : RangeReader σ), ReadableStore.Responds σ →
      RangeReader.create store base start stop size scratch = .ok (.ok reader) →
      Source.Quiescent reader
        (fun bytes error => ∃ whole,
          SizedDecoder.Fetches reader.decoder.source reader.decoder.remaining whole (some error) ∧
            bytes = (whole.drop (offsetInChunk start)).take (stop - start))
        fun last later => ∀ _ : ReadableStore σ, Source.Silent last later := by
  refine ⟨?sized, ?stream, fun σ _ store base start stop size scratch reader responds created =>
    RangeReader.quiescent responds created⟩
  case sized =>
    intro ρ _ source size scratch responds
    refine (SizedDecoder.halts source size).quiescent ?_ (.start source size scratch)
      (SizedDecoder.responds responds size scratch)
    rintro bytes error last ⟨idle, failed, account, _⟩
    exact ⟨account, fun _ => SizedDecoder.silent idle failed⟩
  case stream =>
    intro ρ _ source scratch responds
    refine (StreamDecoder.halts source).quiescent ?_ (.start source scratch)
      (StreamDecoder.responds responds scratch)
    rintro bytes error last ⟨idle, failed, account, _⟩
    exact ⟨account, fun _ => StreamDecoder.silent idle failed⟩

/-- A stream that is damaged in its first frame, read through two decoders, and a read of the last two
of three bytes from a store that fails behind the first of them. -/
theorem readers_of_failing_devices :
    let mismatch : IoError := .carrying (.damage (.checksumMismatch 0 0xabde5729))
    let inner : StreamDecoder Feed := .create ⟨[0, 0, 0, 0, 9], [.limit 2]⟩ .zero
    let store : Medium :=
      ⟨⟨Image.encode [1, 2, 3]⟩, true, [.limit 5, .fail (.described .other "gone")], [], []⟩
    (∃ last later, Source.read inner 1 = .ok (.error mismatch, last) ∧ later.kind = .invalidData ∧
      ∀ _ : Source Feed, Source.Silent last later) ∧
    (∃ last later, Source.read (SizedDecoder.create inner 1 .zero) 1 = .ok (.error mismatch, last) ∧
      later.kind = .invalidData ∧ ∀ _ : Source (StreamDecoder Feed), Source.Silent last later) ∧
    ∃ reader last later, RangeReader.create store 0 1 3 3 .zero = .ok (.ok reader) ∧
      Source.read reader 2 = .ok (.error (.described .other "gone"), last) ∧
      later.kind = .other ∧ ∀ _ : ReadableStore Medium, Source.Silent last later := by
  intro mismatch inner store
  have feeds : Source.Responds (⟨[0, 0, 0, 0, 9], [.limit 2]⟩ : Feed) := Source.responds_of_total _
  obtain ⟨sized, stream, ranges⟩ := failed_readers_are_silent
  refine ⟨?_, ?_, ?_⟩
  · exact (stream Feed _ .zero feeds).of_first_read 1 mismatch (by decide +kernel)
  · exact (sized _ inner 1 .zero (StreamDecoder.responds feeds .zero)).of_first_read 1 mismatch
      (by decide +kernel)
  · let reader : RangeReader Medium :=
      .windowed (.create (.create (.create store 0 7) 3 .zero) 1 2)
    have created : RangeReader.create store 0 1 3 3 .zero = .ok (.ok reader) := rfl
    have quiescent := ranges Medium store 0 1 3 3 .zero reader TotalStore.responds created
    obtain ⟨last, later, call, kind, silent⟩ :=
      quiescent.of_first_read 2 (.described .other "gone") (by decide +kernel)
    exact ⟨reader, last, later, created, call, kind, silent⟩

end SealedStream
