import SealedStream.Proofs.Returning
import SealedStream.Proofs.Sizes
import SealedStream.Reader.RangeReader
import SealedStream.Store.RangeCopy

/-!
# Two runs compared

Two runs are alike if they stop for the same reason, or both come back and their results are related
(`Checked.Alike`). The steps of two runs are compared one by one and put together with
`Checked.Alike.bind` and `Checked.Alike.andThen`. Of two scratch buffers only the bytes at some
positions need to be the same (`Scratch.Agree`): filling both with the same bytes makes them agree
there, and what is read at such positions is the same.
-/
namespace SealedStream

open Layout

namespace Checked

variable {α β γ δ : Type}

/-- Two computations that stop for the same reason, or both come back with related results. -/
inductive Alike (Related : α → β → Prop) : Checked α → Checked β → Prop
  | stop (trap : Trap) : Alike Related (.error trap) (.error trap)
  | back {first : α} {second : β} (related : Related first second) :
      Alike Related (.ok first) (.ok second)

/-- Results with the same reply, and with states that are related by it. -/
structure SameReply {σ τ : Type} (Related : α → σ → τ → Prop) (first : α × σ) (second : α × τ) :
    Prop where
  reply : first.1 = second.1
  state : Related first.1 first.2 second.2

/-- The same error, or values that are related. -/
inductive SameOutcome {ε : Type} (Related : α → β → Prop) : Except ε α → Except ε β → Prop
  | error (error : ε) : SameOutcome Related (.error error) (.error error)
  | ok {first : α} {second : β} (related : Related first second) :
      SameOutcome Related (.ok first) (.ok second)

namespace Alike

variable {Related : α → β → Prop} {first : Checked α} {second : Checked β}

theorem same (run : Checked α) : Alike Eq run run := by
  cases run with
  | error trap => exact .stop trap
  | ok result => exact .back rfl

theorem eq {first second : Checked α} (alike : Alike Eq first second) : first = second := by
  cases alike with
  | stop trap => rfl
  | back same => exact congrArg Except.ok same

theorem same_reply {σ : Type} (run : Checked (α × σ)) : Alike (SameReply fun _ => Eq) run run := by
  cases run with
  | error trap => exact .stop trap
  | ok result => exact .back ⟨rfl, rfl⟩

theorem mono {Weaker : α → β → Prop} (alike : Alike Related first second)
    (weaken : ∀ first second, Related first second → Weaker first second) :
    Alike Weaker first second := by
  cases alike with
  | stop trap => exact .stop trap
  | back related => exact .back (weaken _ _ related)

theorem bind {After : γ → δ → Prop} {next : α → Checked γ} {next' : β → Checked δ}
    (alike : Alike Related first second)
    (further : ∀ first second, Related first second → Alike After (next first) (next' second)) :
    Alike After (first >>= next) (second >>= next') := by
  cases alike with
  | stop trap => exact .stop trap
  | back related => exact further _ _ related

/-- The same, with what the first of the two runs has brought. -/
theorem bind_of_run {After : γ → δ → Prop} {next : α → Checked γ} {next' : β → Checked δ}
    (alike : Alike Related first second)
    (further : ∀ result result', first = .ok result → Related result result' →
      Alike After (next result) (next' result')) :
    Alike After (first >>= next) (second >>= next') := by
  cases alike with
  | stop trap => exact .stop trap
  | back related => exact further _ _ rfl related

/-- A step that the two runs share. -/
theorem bind_same {After : γ → δ → Prop} {step : Checked α} {next : α → Checked γ}
    {next' : α → Checked δ}
    (further : ∀ result, step = .ok result → Alike After (next result) (next' result)) :
    Alike After (step >>= next) (step >>= next') :=
  (same step).bind_of_run fun result _ run equal => equal ▸ further result run

/-- Of runs alike the same is seen, if it is the same in related results. -/
theorem map_eq (alike : Alike Related first second) {show_first : α → γ} {show_second : β → γ}
    (shown : ∀ first second, Related first second → show_first first = show_second second) :
    first.map show_first = second.map show_second := by
  cases alike with
  | stop trap => rfl
  | back related => exact congrArg Except.ok (shown _ _ related)

theorem map {After : γ → δ → Prop} {next : α → γ} {next' : β → δ}
    (alike : Alike Related first second)
    (further : ∀ first second, Related first second → After (next first) (next' second)) :
    Alike After (first.map next) (second.map next') := by
  cases alike with
  | stop trap => exact .stop trap
  | back related => exact .back (further _ _ related)

/-- What the first of the two runs has brought. -/
theorem with_run (alike : Alike Related first second) :
    Alike (fun result result' => first = .ok result ∧ Related result result') first second := by
  cases alike with
  | stop trap => exact .stop trap
  | back related => exact .back ⟨rfl, related⟩

/-- If one of the two comes back, so does the other. -/
theorem of_ok {result : β} (alike : Alike Related first second) (run : second = .ok result) :
    ∃ result', first = .ok result' ∧ Related result' result := by
  cases alike with
  | stop trap => cases run
  | back related =>
    cases run
    exact ⟨_, rfl, related⟩

variable {ε σ τ : Type} {Between : Except ε α → σ → τ → Prop} {After : Except ε β → σ → τ → Prop}

theorem andThen {first : Checked (Except ε α × σ)} {second : Checked (Except ε α × τ)}
    {next : α → σ → Checked (Except ε β × σ)} {next' : α → τ → Checked (Except ε β × τ)}
    (alike : Alike (SameReply Between) first second)
    (further : ∀ value state state', Between (.ok value) state state' →
      Alike (SameReply After) (next value state) (next' value state'))
    (failed : ∀ error state state', Between (.error error) state state' →
      After (.error error) state state') :
    Alike (SameReply After) (first.andThen next) (second.andThen next') := by
  cases alike with
  | stop trap => exact .stop trap
  | @back result result' related =>
    obtain ⟨reply, state⟩ := result
    obtain ⟨_, state'⟩ := result'
    obtain ⟨rfl, related⟩ := related
    cases reply with
    | error error => exact .back ⟨rfl, failed error state state' related⟩
    | ok value => exact further value state state' related

end Alike

end Checked

open Checked (Alike SameReply SameOutcome)

/-! ### Scratch buffers -/

namespace Scratch

variable {first second : Scratch} {start stop position : Nat}

/-- Two buffers with the same bytes from position `start` up to but not including `stop`. -/
def Agree (start stop : Nat) (first second : Scratch) : Prop :=
  ∀ index, start ≤ index → index < stop → first.bytes[index]? = second.bytes[index]?

theorem agree_nowhere (position : Nat) (first second : Scratch) :
    Agree position position first second :=
  fun _ low high => absurd (Nat.lt_of_le_of_lt low high) (Nat.lt_irrefl _)

theorem Agree.within {low high : Nat} (agree : Agree start stop first second) (le : start ≤ low)
    (inside : high ≤ stop) : Agree low high first second :=
  fun index lower upper => agree index (Nat.le_trans le lower) (Nat.lt_of_lt_of_le upper inside)

/-- Where two buffers agree, the same is read from both. -/
theorem Agree.slice (agree : Agree start stop first second) :
    first.slice start stop = second.slice start stop := by
  have same : (first.bytes.take stop).drop start = (second.bytes.take stop).drop start := by
    apply List.ext_getElem?
    intro index
    rw [List.getElem?_drop, List.getElem?_drop, List.getElem?_take, List.getElem?_take]
    split
    next inside => exact agree _ (Nat.le_add_right _ _) inside
    next => rfl
  rw [Scratch.slice, Scratch.slice, same]

/-- What stands at a position of a buffer after it has been filled. -/
theorem getElem?_filled (bytes content : Bytes) (inside : position ≤ bytes.length) (index : Nat) :
    (bytes.take position ++ content ++ bytes.drop (position + content.length))[index]? =
      if position ≤ index ∧ index < position + content.length then content[index - position]?
      else bytes[index]? := by
  have front : (bytes.take position).length = position := List.length_take_of_le inside
  rcases Nat.lt_or_ge index position with before | from_start
  · rw [if_neg (by omega), List.append_assoc, List.getElem?_append_left (by omega),
      List.getElem?_take_of_lt before]
  · rcases Nat.lt_or_ge index (position + content.length) with within | behind
    · rw [if_pos ⟨from_start, within⟩, List.append_assoc, List.getElem?_append_right (by omega),
        front, List.getElem?_append_left (by omega)]
    · rw [if_neg (by omega), List.getElem?_append_right (by rw [List.length_append]; omega),
        List.length_append, front, List.getElem?_drop, Nat.add_sub_cancel' behind]

/-- Filling two buffers with the same bytes makes them agree on these, and elsewhere where they
agreed. -/
theorem fill_alike (content : Bytes)
    (elsewhere : ∀ index, start ≤ index → index < stop →
      index < position ∨ position + content.length ≤ index →
        first.bytes[index]? = second.bytes[index]?) :
    Alike (Agree start stop) (first.fill position content) (second.fill position content) := by
  unfold fill
  by_cases fits : position + content.length ≤ chunkLength
  · rw [dif_pos fits, dif_pos fits]
    refine .back fun index low high => ?_
    dsimp only
    rw [getElem?_filled _ _ (by rw [first.length_eq]; omega),
      getElem?_filled _ _ (by rw [second.length_eq]; omega)]
    split
    next => rfl
    next outside => exact elsewhere index low high (by omega)
  · rw [dif_neg fits, dif_neg fits]
    exact .stop _

theorem Agree.fill_behind (agree : Agree start position first second) (content : Bytes) :
    Alike (Agree start (position + content.length)) (first.fill position content)
      (second.fill position content) := by
  refine fill_alike content fun index low high outside => agree index low ?_
  omega

theorem Agree.fill_front {content : Bytes}
    (agree : Agree (position + content.length) stop first second) :
    Alike (Agree position stop) (first.fill position content) (second.fill position content) := by
  refine fill_alike content fun index low high outside => agree index ?_ high
  omega

/-- Buffers with the same payload are sealed alike. -/
theorem Agree.sealFrame {length : Nat}
    (agree : Agree headerLength (headerLength + length) first second) :
    Alike (SameReply fun _ _ _ => True) (first.sealFrame length) (second.sealFrame length) := by
  unfold Scratch.sealFrame
  dsimp only
  rw [agree.slice]
  refine Alike.bind_same fun payload _ => ?_
  have header : 0 + (Checksum.of payload).header.length = headerLength := rfl
  rw [← header] at agree
  refine agree.fill_front.bind fun filled filled' sealed => ?_
  rw [header] at sealed
  rw [sealed.slice]
  exact Alike.bind_same fun frame _ => .back ⟨rfl, trivial⟩

end Scratch

/-! ### Readers -/

namespace Source

variable {ρ ρ' : Type} [Source ρ] [Source ρ']

/-- Readers that are so related give the same reply to every read, and stay so. -/
def Twins (Related : ρ → ρ' → Prop) : Prop :=
  ∀ first second room, Related first second →
    Alike (SameReply fun _ => Related) (read first room) (read second room)

theorem Twins.readEach {Related : ρ → ρ' → Prop} (twins : Twins Related) {first : ρ} {second : ρ'}
    (related : Related first second) (rooms : List Nat) :
    Alike (SameReply fun _ => Related) (readEach first rooms) (readEach second rooms) := by
  induction rooms generalizing first second with
  | nil => exact .back ⟨rfl, related⟩
  | cons room rooms ih =>
    refine (twins first second room related).bind ?_
    rintro ⟨reply, next⟩ ⟨_, next'⟩ ⟨rfl, after⟩
    refine (ih after).bind ?_
    rintro ⟨replies, last⟩ ⟨_, last'⟩ ⟨rfl, final⟩
    exact .back ⟨rfl, final⟩

/-- How readers are related after a read: by what is left of the bytes that they have in common, or,
if it failed, without any bound. -/
def Left (Related : Nat → ρ → ρ' → Prop) (left : Nat) : Except IoError Bytes → ρ → ρ' → Prop
  | .ok bytes, first, second => Related (left - bytes.length) first second
  | .error _, first, second => ∀ left, Related left first second

/-- Readers that have a number of bytes in common: as long as there are some, a read that asks for no
more gets the same reply from both. -/
structure Shares (Related : Nat → ρ → ρ' → Prop) : Prop where
  less {left fewer : Nat} {first : ρ} {second : ρ'} : Related left first second → fewer ≤ left →
    Related fewer first second
  read {left room : Nat} {first : ρ} {second : ρ'} : Related left first second → 0 < left →
    room ≤ left →
    Alike (SameReply (Left Related left)) (Source.read first room) (Source.read second room)

theorem Twins.shares {Related : ρ → ρ' → Prop} (twins : Twins Related) :
    Shares fun _ => Related where
  less related _ := related
  read {left room first second} related _ _ := by
    refine (twins first second room related).mono ?_
    rintro ⟨reply, next⟩ ⟨_, next'⟩ ⟨rfl, after⟩
    cases reply with
    | ok bytes => exact ⟨rfl, after⟩
    | error error => exact ⟨rfl, fun _ => after⟩

theorem skip_eq_bind (source : ρ) {count : Nat} (nonzero : count ≠ 0) :
    skip source count = read source (min skipBlock count) >>= fun (reply, next) =>
      match reply with
      | .ok bytes =>
        if bytes = [] then .ok (.ok 0, next)
        else skip next (count - bytes.length) >>= fun (rest, last) =>
          .ok (rest.map (bytes.length + ·), last)
      | .error error =>
        if final : error.kind = .interrupted then skip next count
        else .ok (.error ⟨error, final⟩, next) := by
  rw [skip, if_neg nonzero]
  split
  next call => rw [call]; rfl
  next bytes next call =>
    rw [call, Checked.ok_bind]
    dsimp only
    split
    next => rfl
    next => cases skip next (count - bytes.length) <;> rfl
  next call => rw [call]; rfl

/-- How readers are related after skipping. -/
def Skipped (Related : Nat → ρ → ρ' → Prop) (left count : Nat) :
    Except FinalError Nat → ρ → ρ' → Prop
  | .ok skipped, first, second => skipped ≤ count ∧ Related (left - skipped) first second
  | .error _, first, second => ∀ left, Related left first second

/-- Within the bytes that readers have in common they skip alike. -/
theorem Shares.skip {Related : Nat → ρ → ρ' → Prop} (shares : Shares Related) {left count : Nat}
    {first : ρ} {second : ρ'} (related : Related left first second) (within : count ≤ left) :
    Alike (SameReply (Skipped Related left count)) (Source.skip first count)
      (Source.skip second count) := by
  -- A read brings bytes, or it was interrupted, which happens only finitely often.
  induction measure : count + interruptions first using Nat.strongRecOn
    generalizing left count first second with
  | _ bound ih =>
    by_cases nonzero : count = 0
    · subst nonzero
      rw [Source.skip, Source.skip, if_pos rfl, if_pos rfl]
      exact .back ⟨rfl, Nat.le_refl 0, related⟩
    · rw [skip_eq_bind first nonzero, skip_eq_bind second nonzero]
      have asked : min skipBlock count ≤ left := by omega
      refine (shares.read related (by omega) asked).bind_of_run ?_
      rintro ⟨reply, next⟩ ⟨_, next'⟩ call ⟨rfl, after⟩
      cases reply with
      | ok bytes =>
        dsimp only
        by_cases none : bytes = []
        · subst none
          exact .back ⟨rfl, Nat.zero_le count, after⟩
        · have positive : 0 < bytes.length := List.length_pos_iff.mpr none
          have short := length_le_room call
          have fewer : interruptions next ≤ interruptions first := interruptions_le call
          rw [if_neg none, if_neg none]
          have measure_less : count - bytes.length + interruptions next < bound := by omega
          refine (ih _ measure_less after (by omega) rfl).bind ?_
          rintro ⟨rest, last⟩ ⟨_, last'⟩ ⟨rfl, final⟩
          cases rest with
          | ok skipped =>
            obtain ⟨bound, final⟩ := final
            refine .back ⟨rfl, ?_, ?_⟩
            · dsimp only
              omega
            · rwa [Nat.sub_sub] at final
          | error cause => exact .back ⟨rfl, final⟩
      | error error =>
        dsimp only
        by_cases interrupted : error.kind = .interrupted
        · have fewer := interruptions_lt call interrupted
          rw [dif_pos interrupted, dif_pos interrupted]
          exact ih _ (by omega) (after left) within rfl
        · rw [dif_neg interrupted, dif_neg interrupted]
          exact .back ⟨rfl, after⟩

end Source

namespace Window

variable {ρ ρ' : Type} [Source ρ] [Source ρ']

/-- Windows at the same place of readers that have all bytes up to the end of the window in common. -/
structure Same (Related : Nat → ρ → ρ' → Prop) (first : Window ρ) (second : Window ρ') : Prop where
  skip : first.skip = second.skip
  remaining : first.remaining = second.remaining
  inner : Related (first.skip + first.remaining) first.inner second.inner

variable {Related : Nat → ρ → ρ' → Prop} (shares : Source.Shares Related)

include shares

theorem discard_alike {first : Window ρ} {second : Window ρ'} (same : Same Related first second) :
    Alike (SameReply fun reply first second =>
        Same Related first second ∧ (reply = .ok () → first.skip = 0))
      first.discard second.discard := by
  obtain ⟨inner, skip, remaining⟩ := first
  obtain ⟨inner', _, _⟩ := second
  obtain ⟨rfl, rfl, related⟩ := same
  unfold discard
  by_cases none : skip = 0
  · rw [if_pos none, if_pos none]
    exact .back ⟨rfl, ⟨rfl, rfl, related⟩, fun _ => none⟩
  · rw [if_neg none, if_neg none]
    refine (shares.skip related (Nat.le_add_right _ _)).bind ?_
    rintro ⟨reply, next⟩ ⟨_, next'⟩ ⟨rfl, after⟩
    cases reply with
    | error cause => exact .back ⟨rfl, ⟨rfl, rfl, after _⟩, fun failed => (by cases failed)⟩
    | ok skipped =>
      obtain ⟨bound, after⟩ := after
      refine .back ⟨rfl, ⟨rfl, rfl, ?_⟩, fun _ => rfl⟩
      refine shares.less after ?_
      dsimp only at bound ⊢
      split <;> omega

theorem readInside_alike {first : Window ρ} {second : Window ρ'} (same : Same Related first second)
    (reached : first.skip = 0) (room : Nat) :
    Alike (SameReply fun _ => Same Related) (first.readInside room) (second.readInside room) := by
  obtain ⟨inner, skip, remaining⟩ := first
  obtain ⟨inner', _, _⟩ := second
  obtain ⟨rfl, rfl, related⟩ := same
  obtain rfl : skip = 0 := reached
  rw [Nat.zero_add] at related
  unfold readInside
  by_cases none : remaining = 0
  · rw [if_pos none, if_pos none]
    exact .back ⟨rfl, rfl, rfl, by rwa [Nat.zero_add]⟩
  · rw [if_neg none, if_neg none]
    refine (shares.read related (Nat.pos_of_ne_zero none) (Nat.min_le_right room remaining)).bind ?_
    rintro ⟨reply, next⟩ ⟨_, next'⟩ ⟨rfl, after⟩
    cases reply with
    | error error => exact .back ⟨rfl, rfl, rfl, after _⟩
    | ok bytes =>
      refine Alike.bind_same fun left run => ?_
      obtain ⟨_, rfl⟩ := Checked.sub_eq_ok_iff.mp run
      exact .back ⟨rfl, rfl, rfl, by rwa [Nat.zero_add]⟩

theorem read_alike {first : Window ρ} {second : Window ρ'} (same : Same Related first second)
    (room : Nat) :
    Alike (SameReply fun _ => Same Related) (first.read room) (second.read room) := by
  refine (discard_alike shares same).bind ?_
  rintro ⟨reply, next⟩ ⟨_, next'⟩ ⟨rfl, after, reached⟩
  cases reply with
  | error cause => exact .back ⟨rfl, after⟩
  | ok _ => exact readInside_alike shares after (reached rfl) room

end Window

namespace SizedDecoder

variable {ρ ρ' : Type} {Behind : ρ → ρ' → Prop}

/-- Decoders that show the same and have sources related so. -/
structure Same (Behind : ρ → ρ' → Prop) (first : SizedDecoder ρ) (second : SizedDecoder ρ') :
    Prop where
  source : Behind first.source second.source
  pending : first.pending = second.pending
  remaining : first.remaining = second.remaining
  sticky : first.sticky = second.sticky

theorem Same.hand {first : SizedDecoder ρ} {second : SizedDecoder ρ'}
    (same : Same Behind first second) (room : Nat) :
    SameReply (fun _ => Same Behind) (first.hand room) (second.hand room) :=
  ⟨congrArg (List.take room) same.pending, same.source, congrArg (List.drop room) same.pending,
    same.remaining, same.sticky⟩

variable [Source ρ] [Source ρ'] {first : SizedDecoder ρ} {second : SizedDecoder ρ'}

/-- How many bytes a decoder needs for its next frame. -/
def need (decoder : SizedDecoder ρ) : Nat :=
  min (decoder.remaining + headerLength) chunkLength

/-- If their sources give the same for a frame, two decoders load alike. Then the buffers agree on the
payload, whatever was in them before. -/
theorem Same.load (same : Same Behind first second)
    (gathers : Alike (SameReply fun _ => Behind)
      (Source.gather first.source first.need chunkLength)
      (Source.gather second.source first.need chunkLength)) :
    Alike (SameReply fun reply first second => Same Behind first second ∧
        ∀ count, reply = .ok count →
          Scratch.Agree 0 (headerLength + count) first.scratch second.scratch)
      first.load second.load := by
  obtain ⟨source, scratch, pending, remaining, sticky⟩ := first
  obtain ⟨source', scratch', _, _, _⟩ := second
  obtain ⟨_, rfl, rfl, rfl⟩ := same
  unfold SizedDecoder.load
  refine gathers.bind ?_
  rintro ⟨gathered, next⟩ ⟨_, next'⟩ ⟨rfl, after⟩
  refine ((Scratch.agree_nowhere 0 scratch scratch').fill_behind gathered.bytes).bind ?_
  intro filled filled' agree
  rw [Nat.zero_add] at agree
  dsimp only
  split
  next cause _ => exact .back ⟨rfl, ⟨after, rfl, rfl, rfl⟩, fun _ failed => (by cases failed)⟩
  next =>
    rw [agree.slice]
    refine Alike.bind_same fun frame _ => ?_
    split
    next found _ => exact .back ⟨rfl, ⟨after, rfl, rfl, rfl⟩, fun _ failed => (by cases failed)⟩
    next =>
      refine Alike.bind_same fun length run => ?_
      obtain ⟨long, rfl⟩ := Checked.sub_eq_ok_iff.mp run
      have payload : Scratch.Agree 0
          (headerLength + min (gathered.bytes.length - headerLength) remaining) filled filled' :=
        agree.within (Nat.le_refl 0) (by omega)
      rw [(payload.within (Nat.zero_le _) (Nat.le_refl _)).slice]
      refine Alike.bind_same fun waiting _ => ?_
      refine Alike.bind_same fun left _ => ?_
      refine .back ⟨rfl, ⟨after, rfl, rfl, rfl⟩, ?_⟩
      rintro _ ⟨⟩
      exact payload

theorem Same.fetch (same : Same Behind first second)
    (gathers : Alike (SameReply fun _ => Behind)
      (Source.gather first.source first.need chunkLength)
      (Source.gather second.source first.need chunkLength)) :
    Alike (SameReply fun reply first second => Same Behind first second ∧
        ∀ count, reply = .ok count →
          Scratch.Agree 0 (headerLength + count) first.scratch second.scratch)
      first.fetch second.fetch := by
  refine (same.load gathers).bind ?_
  rintro ⟨reply, next⟩ ⟨_, next'⟩ ⟨rfl, loaded, agree⟩
  cases reply with
  | ok count => exact .back ⟨rfl, loaded, agree⟩
  | error error =>
    exact .back ⟨rfl, ⟨loaded.source, loaded.pending, loaded.remaining, rfl⟩,
      fun _ failed => (by cases failed)⟩

/-- Two decoders read alike if their sources give the same whenever a frame is needed. -/
theorem Same.read (same : Same Behind first second) (room : Nat)
    (gathers : first.pending = [] → first.sticky = none → first.remaining ≠ 0 →
      Alike (SameReply fun _ => Behind) (Source.gather first.source first.need chunkLength)
        (Source.gather second.source first.need chunkLength)) :
    Alike (SameReply fun _ => Same Behind) (first.read room) (second.read room) := by
  unfold SizedDecoder.read
  rw [← same.pending, ← same.sticky, ← same.remaining]
  by_cases idle : first.pending = []
  · rw [if_neg (not_not_intro idle), if_neg (not_not_intro idle)]
    split
    next sticky _ => exact .back ⟨rfl, same⟩
    next untroubled =>
      by_cases done : first.remaining = 0
      · rw [if_pos done, if_pos done]
        exact .back ⟨rfl, same⟩
      · rw [if_neg done, if_neg done]
        refine (same.fetch (gathers idle untroubled done)).bind ?_
        rintro ⟨reply, next⟩ ⟨_, next'⟩ ⟨rfl, fetched, _⟩
        cases reply with
        | error error => exact .back ⟨rfl, fetched⟩
        | ok count =>
          obtain ⟨handed, left⟩ := fetched.hand room
          exact .back ⟨congrArg Except.ok handed, left⟩
  · rw [if_pos idle, if_pos idle]
    obtain ⟨handed, left⟩ := same.hand room
    exact .back ⟨congrArg Except.ok handed, left⟩

end SizedDecoder

namespace RangeReader

variable {σ τ : Type}
  {Entire : SizedDecoder (Span σ) → SizedDecoder (Span τ) → Prop}
  {Related : Nat → SizedDecoder (Span σ) → SizedDecoder (Span τ) → Prop}

/-- Range readers of the same form whose decoders, or windows on decoders, are related. -/
inductive Same (Entire : SizedDecoder (Span σ) → SizedDecoder (Span τ) → Prop)
    (Related : Nat → SizedDecoder (Span σ) → SizedDecoder (Span τ) → Prop) :
    RangeReader σ → RangeReader τ → Prop
  | whole {first second} (entire : Entire first second) :
      Same Entire Related (.whole first) (.whole second)
  | windowed {first second} (same : Window.Same Related first second) :
      Same Entire Related (.windowed first) (.windowed second)

/-- Readers of the same range are opened alike if their decoders are. -/
theorem create_alike {store : σ} {store' : τ} {base start stop size : Nat} {first second : Scratch}
    {Opened : SizedDecoder (Span σ) → SizedDecoder (Span τ) → Prop}
    (opens : start ≤ size → Alike Opened (SizedDecoder.ofStore store base start size first)
      (SizedDecoder.ofStore store' base start size second))
    (entire : ∀ decoder decoder', Opened decoder decoder' → offsetInChunk start = 0 → size ≤ stop →
      Entire decoder decoder')
    (windows : ∀ decoder decoder', Opened decoder decoder' → start ≤ stop →
      Related (offsetInChunk start + (stop - start)) decoder decoder') :
    Alike (SameOutcome (Same Entire Related)) (create store base start stop size first)
      (create store' base start stop size second) := by
  unfold create
  by_cases invalid : stop < start ∨ size < start
  · rw [if_pos invalid, if_pos invalid]
    exact .back (.error _)
  · rw [if_neg invalid, if_neg invalid]
    refine (opens (by omega)).bind fun decoder decoder' opened => ?_
    dsimp only
    by_cases all : offsetInChunk start = 0 ∧ size ≤ stop
    · rw [if_pos all, if_pos all]
      exact .back (.ok (.whole (entire _ _ opened all.1 all.2)))
    · rw [if_neg all, if_neg all]
      exact .back (.ok (.windowed ⟨rfl, rfl, windows _ _ opened (by omega)⟩))

theorem twins [ReadableStore σ] [ReadableStore τ] (entire : Source.Twins Entire)
    (shares : Source.Shares Related) : Source.Twins (Same Entire Related) := by
  intro first second room same
  cases same with
  | whole related =>
    refine (entire _ _ room related).bind ?_
    rintro ⟨reply, next⟩ ⟨_, next'⟩ ⟨rfl, after⟩
    exact .back ⟨rfl, .whole after⟩
  | windowed same =>
    refine (Window.read_alike shares same room).bind ?_
    rintro ⟨reply, next⟩ ⟨_, next'⟩ ⟨rfl, after⟩
    exact .back ⟨rfl, .windowed after⟩

end RangeReader

/-! ### Copies -/

namespace RangeCopy

variable {σ τ κ : Type} {Behind : σ → τ → Prop}

/-- Copies to the same sink from stores related so. -/
structure Same (Behind : σ → τ → Prop) (first : RangeCopy σ κ) (second : RangeCopy τ κ) : Prop where
  store : Behind first.store second.store
  sink : first.sink = second.sink

variable [ReadableStore σ] [ReadableStore τ] [Sink κ] {base : Nat} {first : RangeCopy σ κ}
  {second : RangeCopy τ κ}

/-- A chunk that is given alike by both stores at any time. -/
def Common (Behind : σ → τ → Prop) (base index : Nat) : Prop :=
  ∀ store store' offset, Behind store store' → Checked.add base (chunkStart index) = .ok offset →
    Alike (SameReply fun _ => Behind) (ReadableStore.readFullAt store offset chunkLength)
      (ReadableStore.readFullAt store' offset chunkLength)

theorem Same.part (same : Same Behind first second) {index : Nat} (common : Common Behind base index)
    (start stop : Nat) :
    Alike (SameReply fun _ => Same Behind) (first.part base index start stop)
      (second.part base index start stop) := by
  obtain ⟨store, sink, scratch⟩ := first
  obtain ⟨store', _, scratch'⟩ := second
  obtain ⟨related, rfl⟩ := same
  unfold RangeCopy.part
  refine Alike.bind_same fun offset place => ?_
  refine (common store store' offset related place).bind ?_
  rintro ⟨gathered, next⟩ ⟨_, next'⟩ ⟨rfl, after⟩
  refine ((Scratch.agree_nowhere 0 scratch scratch').fill_behind gathered.bytes).bind ?_
  intro filled filled' agree
  rw [Nat.zero_add] at agree
  dsimp only
  split
  next cause _ => exact .back ⟨rfl, after, rfl⟩
  next =>
    split
    next => exact .back ⟨rfl, after, rfl⟩
    next =>
      rw [agree.slice]
      refine Alike.bind_same fun frame _ => ?_
      split
      next found _ => exact .back ⟨rfl, after, rfl⟩
      next =>
        by_cases short : gathered.bytes.length < headerLength + stop
        · rw [if_pos short, if_pos short]
          exact .back ⟨rfl, after, rfl⟩
        · rw [if_neg short, if_neg short]
          have inside : Scratch.Agree (headerLength + start) (headerLength + stop) filled filled' :=
            agree.within (Nat.zero_le _) (Nat.le_of_not_lt short)
          rw [inside.slice]
          refine Alike.bind_same fun bytes _ => ?_
          refine Alike.bind_same fun (reply, taker) _ => ?_
          exact .back ⟨rfl, after, rfl⟩

theorem Same.chunks (same : Same Behind first second) {index last : Nat}
    (common : ∀ other, index ≤ other → other < last → Common Behind base other) (start : Nat) :
    Alike (SameReply fun _ => Same Behind) (first.chunks base index last start)
      (second.chunks base index last start) := by
  induction measure : last - index generalizing first second index start with
  | zero =>
    rw [RangeCopy.chunks, RangeCopy.chunks, if_neg (by omega), if_neg (by omega)]
    exact .back ⟨rfl, same⟩
  | succ count ih =>
    have more : index < last := by omega
    rw [RangeCopy.chunks, RangeCopy.chunks, if_pos more, if_pos more]
    refine (same.part (common index (Nat.le_refl _) more) start payloadLength).andThen ?_
      fun _ _ _ after => after
    intro _ next next' after
    exact ih after (fun other le => common other (by omega)) 0 (by omega)

/-- Two copies of a range are alike if the stores give the chunks alike that hold any of it. -/
theorem Same.run (same : Same Behind first second) {start stop : Nat}
    (common : ∀ index, chunkIndex start ≤ index → payloadLength * index < stop →
      Common Behind base index) :
    Alike (SameReply fun _ => Same Behind) (first.run base start stop)
      (second.run base start stop) := by
  unfold RangeCopy.run
  by_cases none : stop ≤ start
  · rw [if_pos none, if_pos none]
    exact .back ⟨rfl, same⟩
  · rw [if_neg none, if_neg none]
    dsimp only
    have split := offset_split stop
    have from_start := offset_split start
    by_cases one : chunkIndex start = chunkIndex stop
    · rw [if_pos one, if_pos one]
      rw [← one] at split
      exact same.part (common _ (Nat.le_refl _) (by omega)) _ _
    · rw [if_neg one, if_neg one]
      have ordered : chunkIndex start < chunkIndex stop := by
        have le : chunkIndex start ≤ chunkIndex stop := Nat.div_le_div_right (by omega)
        omega
      have whole : ∀ index, chunkIndex start ≤ index → index < chunkIndex stop →
          Common Behind base index := by
        intro index le less
        have before : payloadLength * index < payloadLength * chunkIndex stop :=
          Nat.mul_lt_mul_of_pos_left less (by decide)
        exact common index le (by omega)
      refine (same.chunks whole _).andThen ?_ fun _ _ _ after => after
      intro _ next next' after
      by_cases rest : 0 < offsetInChunk stop
      · rw [if_pos rest, if_pos rest]
        exact after.part (common _ (Nat.le_of_lt ordered) (by omega)) _ _
      · rw [if_neg rest, if_neg rest]
        exact .back ⟨rfl, after⟩

end RangeCopy

end SealedStream
