import SealedStream.Proofs.Halting
import SealedStream.Proofs.StreamEncoding

/-!
# Encoding amid errors

A stream encoder whose source fails forgets what it had gathered for the next payload, and goes on
with what the source gives when it is read again. So what comes out is the image of the data without
these bytes, at any time and at the end (`StreamEncoder.encodes_amid_errors`): each frame is right, but
the stream has a gap wherever a read failed behind the first byte of a payload. It is the image of all
the data if no read failed there.
-/
namespace SealedStream

open Layout

/-- A source that has `bytes` to give and then ends. Any read may fail, and then it has given
nothing. -/
def Source.SuppliesAmidErrors {ρ : Type} [Source ρ] (source : ρ) (bytes : Bytes) : Prop :=
  SuppliesAmid (fun _ => True) source bytes

/-- A feed supplies its bytes, whatever errors are in its script, if no read is cut down to nothing. -/
theorem Feed.suppliesAmidErrors {feed : Feed} (moves : .limit 0 ∉ feed.script) :
    Source.SuppliesAmidErrors feed feed.bytes :=
  suppliesAmid moves fun _ _ => trivial

/-! ### What becomes of the data -/

/-- What an encoder has made of bytes that it took from its source: a frame, or nothing because a read
failed behind them. -/
inductive Portion where
  | sealed (bytes : Bytes)
  | lost (bytes : Bytes)

namespace Portion

def bytes : Portion → Bytes
  | sealed bytes | lost bytes => bytes

def kept : Portion → Bytes
  | sealed bytes => bytes
  | lost _ => []

def isLost : Portion → Bool
  | sealed _ => false
  | lost _ => true

/-- If nothing was in what was lost, all was kept. -/
theorem flatMap_kept {portions : List Portion}
    (nothing : ∀ bytes, lost bytes ∈ portions → bytes = []) :
    portions.flatMap kept = portions.flatMap bytes := by
  have same : ∀ portion ∈ portions, portion.kept = portion.bytes := by
    intro portion member
    cases portion with
    | sealed bytes => rfl
    | lost bytes => exact (nothing bytes member).symm
  rw [List.flatMap_def, List.flatMap_def, List.map_congr_left same]

end Portion

namespace StreamEncoder

variable {ρ : Type} [Source ρ] {data : Bytes} {replies : List (Except IoError Bytes)}
  {portions : List Portion} {encoder : StreamEncoder ρ}

/-- An encoder that has replied so, having made these portions of what it took from the front of the
data. -/
structure Account (data : Bytes) (replies : List (Except IoError Bytes)) (portions : List Portion)
    (encoder : StreamEncoder ρ) : Prop where
  taken : ∃ rest, Source.SuppliesAmidErrors encoder.source rest ∧
    data = portions.flatMap Portion.bytes ++ rest ∧ (encoder.finished = true → rest = [])
  given : Source.delivered replies ++ encoder.pending =
    Image.encode (portions.flatMap Portion.kept)
  /-- Until the source has ended, only full payloads were sealed. -/
  aligned : encoder.finished = false → payloadLength ∣ (portions.flatMap Portion.kept).length
  failed : portions.countP Portion.isLost = (Source.failures replies).length
  short : ∀ bytes, .lost bytes ∈ portions → bytes.length < payloadLength
  ended : .ok [] ∈ replies → encoder.finished = true ∧ encoder.pending = []

namespace Account

theorem start {source : ρ} (supplies : Source.SuppliesAmidErrors source data) (scratch : Scratch) :
    Account data [] [] (create source scratch) where
  taken := ⟨data, supplies, rfl, fun finished => nomatch finished⟩
  given := Image.encode_nil.symm
  aligned _ := Nat.dvd_zero _
  failed := rfl
  short _ absent := nomatch absent
  ended absent := nomatch absent

/-- Handing out moves bytes from those that wait to those that were delivered. -/
theorem hand (account : Account data replies portions encoder) (some : encoder.pending ≠ [])
    {room : Nat} (positive : 0 < room) :
    Account data (replies ++ [.ok (encoder.hand room).1]) portions (encoder.hand room).2 where
  taken := account.taken
  given := by
    rw [Source.delivered_concat, List.append_assoc]
    show _ ++ (encoder.pending.take room ++ encoder.pending.drop room) = _
    rw [List.take_append_drop]
    exact account.given
  aligned := account.aligned
  failed := by
    rw [Source.failures_concat_ok]
    exact account.failed
  short := account.short
  ended member := by
    -- Bytes that wait are handed out, so this reply is not the end and there was none before.
    have brings : (encoder.hand room).1 ≠ [] := by
      simpa [StreamEncoder.hand, some] using Nat.ne_of_gt positive
    rcases List.mem_append.mp member with before | this
    · exact absurd (account.ended before).2 some
    · exact absurd (Except.ok.inj (List.mem_singleton.mp this)).symm brings

/-- At the end, a read brings nothing. -/
theorem finish (account : Account data replies portions encoder) (idle : encoder.pending = [])
    (finished : encoder.finished = true) : Account data (replies ++ [.ok []]) portions encoder where
  taken := account.taken
  given := by
    rw [Source.delivered_concat]
    exact (congrArg (· ++ _) (List.append_nil _)).trans account.given
  aligned := account.aligned
  failed := by
    rw [Source.failures_concat_ok]
    exact account.failed
  short := account.short
  ended _ := ⟨finished, idle⟩

section

variable {part rest : Bytes} {source : ρ} {scratch : Scratch}

/-- A failed fetch loses what it had gathered. -/
theorem lose (account : Account data replies portions encoder) (unfinished : encoder.finished = false)
    (split : data = portions.flatMap Portion.bytes ++ (part ++ rest))
    (supplies : Source.SuppliesAmidErrors source rest) (small : part.length < payloadLength)
    (error : IoError) :
    Account data (replies ++ [.error error]) (portions ++ [.lost part])
      { encoder with source, scratch } where
  taken := by
    refine ⟨rest, supplies, ?_, fun finished => absurd finished (by simp [unfinished])⟩
    simpa [Portion.bytes] using split
  given := by simpa [Source.delivered_concat, Except.toOption, Portion.kept] using account.given
  aligned := by simpa [Portion.kept] using account.aligned
  failed := by simp [Source.failures_concat_error, Portion.isLost, account.failed]
  short bytes member := by
    rcases List.mem_append.mp member with before | this
    · exact account.short bytes before
    · cases List.mem_singleton.mp this
      exact small
  ended member := account.ended (by simpa using member)

/-- A fetch of some bytes makes their frame wait. If they are too few for a full one, the source has
ended. -/
theorem keep (account : Account data replies portions encoder) (idle : encoder.pending = [])
    (unfinished : encoder.finished = false)
    (split : data = portions.flatMap Portion.bytes ++ (part ++ rest))
    (supplies : Source.SuppliesAmidErrors source rest) (some : part ≠ [])
    (small : part.length ≤ payloadLength) (short : part.length < payloadLength → rest = []) :
    Account data replies (portions ++ [.sealed part])
      ⟨source, scratch, Frame.ofPayload part, decide (part.length < payloadLength)⟩ where
  taken := by
    refine ⟨rest, supplies, ?_, fun finished => short (of_decide_eq_true finished)⟩
    simpa [Portion.bytes] using split
  given := by
    have given := account.given
    rw [idle, List.append_nil] at given
    rw [given, List.flatMap_append, List.flatMap_singleton, Portion.kept,
      Image.encode_last (account.aligned unfinished) some small]
  aligned full := by
    have exact : part.length = payloadLength :=
      Nat.le_antisymm small (Nat.le_of_not_lt (of_decide_eq_false full))
    rw [List.flatMap_append, List.flatMap_singleton, Portion.kept, List.length_append, exact]
    exact Nat.dvd_add (account.aligned unfinished) (Nat.dvd_refl _)
  failed := by simpa [Portion.isLost] using account.failed
  short bytes member := account.short bytes (by simpa using member)
  ended member := absurd (account.ended member).1 (by simp [unfinished])

/-- A fetch of nothing is the end of the source. -/
theorem exhaust (account : Account data replies portions encoder) (idle : encoder.pending = [])
    (unfinished : encoder.finished = false) (split : data = portions.flatMap Portion.bytes)
    (supplies : Source.SuppliesAmidErrors source []) :
    Account data replies portions ⟨source, scratch, [], true⟩ where
  taken := ⟨[], supplies, by rw [List.append_nil, split], fun _ => rfl⟩
  given := idle ▸ account.given
  aligned finished := nomatch finished
  failed := account.failed
  short := account.short
  ended member := absurd (account.ended member).1 (by simp [unfinished])

end

/-- A fetch seals some bytes, finds the source at its end, or fails and loses what it had gathered. -/
theorem fetch (account : Account data replies portions encoder) (idle : encoder.pending = [])
    (unfinished : encoder.finished = false) :
    (∃ portion next, encoder.fetch = .ok (.ok (), next) ∧ next.pending ≠ [] ∧
      Account data replies (portions ++ [portion]) next) ∨
    (∃ next, encoder.fetch = .ok (.ok (), next) ∧ next.pending = [] ∧ next.finished = true ∧
      Account data replies portions next) ∨
    ∃ cause portion next, encoder.fetch = .ok (.error cause, next) ∧
      Account data (replies ++ [.error cause.toIo]) (portions ++ [portion]) next := by
  obtain ⟨_, supplies, split, _⟩ := account.taken
  obtain ⟨⟨part, failure⟩, rest, source, gathering, rfl, after, short, failed⟩ :=
    supplies.gather payloadLength payloadLength (Nat.le_refl _)
  obtain ⟨scratch, fetching⟩ := encoder.fetch_of_gather gathering
  have small : part.length ≤ payloadLength := Source.length_gather_le gathering
  obtain ⟨current, buffer, pending, finished⟩ := encoder
  cases idle
  cases unfinished
  cases failure with
  | some cause =>
    exact .inr (.inr ⟨cause, _, _, fetching,
      account.lose rfl split after (failed cause rfl).2 cause.toIo⟩)
  | none =>
    by_cases none : part = []
    · subst none
      obtain rfl := short rfl (by decide)
      exact .inr (.inl ⟨_, fetching, rfl, rfl,
        account.exhaust rfl rfl (by rwa [List.append_nil, List.append_nil] at split) after⟩)
    · simp only [advance, none, if_false, Bool.false_or] at fetching
      exact .inl ⟨_, _, fetching, Frame.ofPayload_ne_nil part,
        account.keep rfl rfl split after none small (short rfl)⟩

/-- A read with room comes back, whatever its source does. -/
theorem read (account : Account data replies portions encoder) {room : Nat} (positive : 0 < room) :
    ∃ reply next more, encoder.read room = .ok (reply, next) ∧
      Account data (replies ++ [reply]) (portions ++ more) next := by
  unfold StreamEncoder.read
  by_cases idle : encoder.pending = []
  · rw [if_neg (not_not_intro idle)]
    cases finished : encoder.finished with
    | true => exact ⟨_, _, [], rfl, by simpa using account.finish idle finished⟩
    | false =>
      rw [if_neg Bool.false_ne_true]
      rcases account.fetch idle finished with ⟨portion, next, fetching, some, after⟩ |
        ⟨next, fetching, none, ended, after⟩ | ⟨cause, portion, next, fetching, after⟩
      · rw [fetching]
        exact ⟨_, _, [portion], rfl, after.hand some positive⟩
      · rw [fetching]
        refine ⟨_, _, [], rfl, ?_⟩
        have last := after.finish none ended
        obtain ⟨source, scratch, pending, finished⟩ := next
        cases none
        simpa [hand] using last
      · rw [fetching]
        exact ⟨_, _, [portion], rfl, after⟩
  · rw [if_pos idle]
    have handed := account.hand idle positive
    rw [← List.append_nil portions] at handed
    exact ⟨_, _, [], rfl, handed⟩

/-- Every row of reads with room comes back. -/
theorem readEach (account : Account data replies portions encoder) (rooms : List Nat)
    (positive : ∀ room ∈ rooms, 0 < room) :
    ∃ others last more, Source.readEach encoder rooms = .ok (others, last) ∧
      Account data (replies ++ others) (portions ++ more) last := by
  -- The induction is on the reads; replies and portions grow by those of the first one.
  induction rooms generalizing encoder replies portions with
  | nil => exact ⟨[], encoder, [], rfl, by simpa using account⟩
  | cons room rooms ih =>
    obtain ⟨first, others⟩ := List.forall_mem_cons.mp positive
    obtain ⟨reply, next, more, call, after⟩ := account.read first
    obtain ⟨rest, last, further, run, final⟩ := ih after others
    refine ⟨reply :: rest, last, more ++ further, ?_, by simpa using final⟩
    have step : Source.read encoder room = .ok (reply, next) := call
    rw [Source.readEach, step, Checked.ok_bind]
    dsimp only
    rw [run]
    rfl

/-- What was delivered is a front part of the image of what was kept, and all of it at the end. -/
theorem delivered_prefix (account : Account data replies portions encoder) :
    Source.delivered replies <+: Image.encode (portions.flatMap Portion.kept) ∧
      (.ok [] ∈ replies → portions.flatMap Portion.bytes = data ∧
        Source.delivered replies = Image.encode (portions.flatMap Portion.kept)) := by
  refine ⟨⟨encoder.pending, account.given⟩, fun member => ?_⟩
  obtain ⟨finished, none⟩ := account.ended member
  obtain ⟨rest, _, split, last⟩ := account.taken
  have given := account.given
  rw [none, List.append_nil] at given
  rw [last finished, List.append_nil] at split
  exact ⟨split.symm, given⟩

/-- The image of what was kept is a front part of the image of the data if nothing was lost. -/
theorem encode_prefix (account : Account data replies portions encoder)
    (nothing : ∀ bytes, .lost bytes ∈ portions → bytes = []) :
    Image.encode (portions.flatMap Portion.kept) <+: Image.encode data := by
  obtain ⟨rest, _, split, last⟩ := account.taken
  rw [← Portion.flatMap_kept nothing] at split
  rw [split]
  -- The payloads so far are whole, or the source has ended.
  cases finished : encoder.finished with
  | true => exact ⟨[], by rw [last finished, List.append_nil, List.append_nil]⟩
  | false =>
    rw [Image.encode_append (account.aligned finished)]
    exact List.prefix_append _ _

end Account

/-- However a caller reads on, with buffers that are not empty, what an encoder delivers is the image of
the data less what was gathered when a read of the source failed. Each failure loses less than a
payload. The image has no gap if every failure came when nothing was gathered. -/
theorem encodes_amid_errors {source : ρ} (scratch : Scratch)
    (supplies : Source.SuppliesAmidErrors source data) (rooms : List Nat)
    (positive : ∀ room ∈ rooms, 0 < room) :
    ∃ replies last, ∃ portions : List Portion,
      Source.readEach (create source scratch) rooms = .ok (replies, last) ∧
      portions.flatMap Portion.bytes <+: data ∧
      portions.countP Portion.isLost = (Source.failures replies).length ∧
      (∀ bytes, .lost bytes ∈ portions → bytes.length < payloadLength) ∧
      Source.delivered replies <+: Image.encode (portions.flatMap Portion.kept) ∧
      (.ok [] ∈ replies → portions.flatMap Portion.bytes = data ∧
        Source.delivered replies = Image.encode (portions.flatMap Portion.kept)) ∧
      ((∀ bytes, .lost bytes ∈ portions → bytes = []) →
        Source.delivered replies <+: Image.encode data ∧
          (.ok [] ∈ replies → Source.delivered replies = Image.encode data)) := by
  obtain ⟨replies, last, portions, run, account⟩ :=
    (Account.start supplies scratch).readEach rooms positive
  rw [List.nil_append, List.nil_append] at account
  obtain ⟨rest, _, split, _⟩ := account.taken
  obtain ⟨front, all⟩ := account.delivered_prefix
  refine ⟨replies, last, portions, run, ⟨rest, split.symm⟩, account.failed, account.short, front, all,
    fun nothing => ⟨front.trans (account.encode_prefix nothing), fun member => ?_⟩⟩
  obtain ⟨taken, whole⟩ := all member
  rw [whole, Portion.flatMap_kept nothing, taken]

/-- Three bytes from a feed that fails behind the first: that one is lost, and the others come out as
their image. -/
theorem two_bytes_behind_error :
    let feed : Feed := ⟨[1, 2, 3], [.limit 1, .fail (.bare .other)]⟩
    ∃ replies last, ∃ portions : List Portion,
      Source.readEach (create feed .zero) [8, 8, 8] = .ok (replies, last) ∧
      Source.delivered replies = Image.encode [2, 3] ∧ Source.failures replies = [.bare .other] ∧
      portions.flatMap Portion.bytes = [1, 2, 3] ∧ portions.countP Portion.isLost = 1 ∧
      Image.encode (portions.flatMap Portion.kept) = Image.encode [2, 3] := by
  intro feed
  have supplies : Source.SuppliesAmidErrors feed [1, 2, 3] := Feed.suppliesAmidErrors (by decide)
  obtain ⟨replies, last, portions, run, _, lost, _, _, all, _⟩ :=
    encodes_amid_errors .zero supplies [8, 8, 8] (by decide)
  have known : (Source.readEach (create feed .zero) [8, 8, 8]).toOption.map (fun (replies, _) =>
      (Source.delivered replies, Source.failures replies, replies.map Except.toOption)) =
        some (Image.encode [2, 3], [.bare .other], [none, some (Image.encode [2, 3]), some []]) := by
    decide +kernel
  rw [run] at known
  have same := Option.some.inj known
  rw [Prod.mk.injEq, Prod.mk.injEq] at same
  obtain ⟨delivered, failures, each⟩ := same
  have ended : .ok [] ∈ replies := by
    have last_one : some [] ∈ replies.map Except.toOption := by
      rw [each]
      simp
    obtain ⟨reply, member, none⟩ := List.mem_map.mp last_one
    cases reply with
    | error error => cases none
    | ok part =>
      cases none
      exact member
  obtain ⟨taken, whole⟩ := all ended
  refine ⟨replies, last, portions, run, delivered, failures, taken, ?_, ?_⟩
  · rw [lost, failures]
    rfl
  · rw [← whole, delivered]

/-- Two bytes from a feed that fails behind the first: what comes out is the image of the second
alone, which no part of the image of both is. -/
theorem byte_lost_behind_error :
    let feed : Feed := ⟨[1, 2], [.limit 1, .fail (.bare .other)]⟩
    Source.SuppliesAmidErrors feed [1, 2] ∧
    (Source.readEach (create feed .zero) [8, 8, 8]).toOption.map
      (fun result => result.1.map Except.toOption) = some [none, some (Image.encode [2]), some []] ∧
    ¬ Image.encode [2] <+: Image.encode [1, 2] := by
  intro feed
  exact ⟨Feed.suppliesAmidErrors (by decide), by decide +kernel, by decide +kernel⟩

end StreamEncoder

end SealedStream
