import SealedStream.Proofs.CrashSafety
import SealedStream.Store.Archive

/-!
# An archive as a log of appends

However the devices behave, an archive is a log of the appends that succeeded: its stream is the
image of that log after any number of calls, whatever failed calls have left behind the end, and
nothing in front of the stream ever changes. Only a header that was rewritten in part is not a stream
any more. The invariant is `Archive.Holds`; `Archive.Outcome.Lawful.holds` says that a call keeps it, and
`Archive.holds_appends` that all calls in a row do.
-/
namespace SealedStream

open Layout

theorem Placement.of_grow {placement grown : Placement} {count : Nat}
    (growth : placement.grow count = .ok grown) :
    grown = ⟨placement.base, placement.logicalSize + count⟩ ∧ grown.validate = .ok () := by
  unfold grow at growth
  split at growth
  next total sum =>
    obtain ⟨_, rfl⟩ := Checked.add_eq_ok_iff.mp sum
    unfold create at growth
    dsimp only at growth
    cases valid : validate ⟨placement.base, placement.logicalSize + count⟩ with
    | error error => rw [valid] at growth; cases growth
    | ok _ =>
      rw [valid] at growth
      cases growth
      exact ⟨rfl, valid⟩
  next => cases growth

namespace Memory

/-- A put behind the front of a store keeps the front. -/
theorem take_put {memory : Memory} {base offset : Nat} (inside : base ≤ memory.length)
    (behind : base ≤ offset) (content : Bytes) :
    (memory.put offset content).bytes.take base = memory.bytes.take base := by
  have length : memory.length = memory.bytes.length := rfl
  have padded_length := length_padded memory.bytes (offset + content.length)
  have front : ((padded memory.bytes (offset + content.length)).take offset).length = offset :=
    List.length_take_of_le (by omega)
  rw [put]
  dsimp only
  -- Padding, too, is behind the front.
  rw [List.append_assoc, List.take_append_of_le_length (by omega), List.take_take,
    Nat.min_eq_left behind, padded, List.take_append_of_le_length (by omega)]

theorem take_replay {memory : Memory} {base : Nat} (inside : base ≤ memory.length)
    {entries : List Entry} (behind : ∀ entry ∈ entries, base ≤ entry.position) :
    (memory.replay entries).bytes.take base = memory.bytes.take base := by
  induction entries generalizing memory with
  | nil => rfl
  | cons entry entries ih =>
    have first : (memory.apply entry).bytes.take base = memory.bytes.take base :=
      take_put inside (behind entry List.mem_cons_self) _
    have still : base ≤ (memory.apply entry).length := by
      have lengths := congrArg List.length first
      rw [List.length_take, List.length_take] at lengths
      rw [Memory.length] at inside ⊢
      omega
    rw [replay, List.foldl_cons, ← replay,
      ih still fun other member => behind other (List.mem_cons_of_mem _ member), first]

end Memory

namespace Archive

variable {σ ρ : Type} [TracedStore σ] [TracedSource ρ]

/-- A stream of the bytes in a log lies in the store where the archive says. -/
structure Holds (archive : Archive σ) (base : Nat) (log : Bytes) : Prop where
  placement : archive.placement = ⟨base, log.length⟩
  long : base + encodedLength log.length ≤ (LawfulStore.contents archive.store).length
  image : ((LawfulStore.contents archive.store).bytes.drop base).take (encodedLength log.length) =
    Image.encode log

/-- A call that appends bytes of a source. -/
structure Request (ρ : Type) where
  source : ρ
  count : Nat

/-- What came of a request. -/
structure Outcome (σ ρ : Type) where
  before : Archive σ
  request : Request ρ
  reply : Except StreamError Unit
  after : Archive σ
  rest : ρ

/-- Appends one after the other, whether or not they succeed. -/
def appendEach (archive : Archive σ) :
    List (Request ρ) → Checked (List (Outcome σ ρ) × Archive σ)
  | [] => return ([], archive)
  | request :: requests => do
    let (reply, next, rest) ← archive.append request.source request.count
    let (outcomes, last) ← next.appendEach requests
    return (⟨archive, request, reply, next, rest⟩ :: outcomes, last)

namespace Outcome

/-- The bytes that the source has given in the call. -/
def given (outcome : Outcome σ ρ) : Bytes :=
  (TracedSource.given outcome.rest).drop (TracedSource.given outcome.request.source).length

/-- The bytes that the store has taken in the call. -/
def accepted (outcome : Outcome σ ρ) : List Entry :=
  (TracedStore.trace outcome.after.store).drop (TracedStore.trace outcome.before.store).length

/-- What the call adds to the log. -/
def logged (outcome : Outcome σ ρ) : Bytes :=
  if outcome.reply.isOk then outcome.given else []

/-- How many bytes of the header of the last chunk have been rewritten. -/
def rewritten (outcome : Outcome σ ρ) : Nat :=
  outcome.accepted.countP
    (InTailHeader outcome.before.placement.base outcome.before.logicalSize ·.position)

/-- An error has stopped the rewriting of a header in the middle. -/
def Torn (outcome : Outcome σ ρ) : Prop :=
  outcome.reply.isOk = false ∧ 0 < outcome.rewritten ∧ outcome.rewritten < headerLength

/-- What the call would store if its source gave these bytes. -/
def plan (outcome : Outcome σ ρ) (data : Bytes) : List Entry :=
  Appending.plan
    (Appending.tailPayload (LawfulStore.contents outcome.before.store)
      outcome.before.placement.base outcome.before.logicalSize)
    outcome.before.placement.base outcome.before.logicalSize data

/-- The devices tell what went through them in the call. -/
theorem of_moved {outcome : Outcome σ ρ} {given : Bytes} {accepted : List Entry}
    (moved : Moved ⟨outcome.before.store, outcome.request.source⟩
      ⟨outcome.after.store, outcome.rest⟩ given accepted) :
    outcome.given = given ∧ outcome.accepted = accepted := by
  rw [Outcome.given, Outcome.accepted, moved.given, moved.trace, List.drop_left, List.drop_left]
  exact ⟨rfl, rfl⟩

/-- What any call comes to. -/
structure Lawful (outcome : Outcome σ ρ) : Prop where
  placement : outcome.after.placement = ⟨outcome.before.placement.base,
    outcome.before.logicalSize + outcome.logged.length⟩
  valid : outcome.after.placement.validate = .ok ()
  contents : LawfulStore.contents outcome.after.store =
    (LawfulStore.contents outcome.before.store).replay outcome.accepted
  taken : outcome.reply.isOk → outcome.given.length = outcome.request.count
  stored : outcome.reply.isOk → outcome.accepted = outcome.plan outcome.given
  stopped : outcome.reply.isOk = false → outcome.rewritten < headerLength ∧
    ∃ data, outcome.accepted <+: outcome.plan data

end Outcome

/-- A request that is refused touches nothing. -/
theorem Outcome.Lawful.refused (archive : Archive σ) (request : Request ρ) (error : StreamError)
    (valid : archive.placement.validate = .ok ()) :
    Outcome.Lawful ⟨archive, request, .error error, archive, request.source⟩ := by
  generalize same : (⟨archive, request, .error error, archive, request.source⟩ :
    Outcome σ ρ) = outcome
  have moved : Moved ⟨outcome.before.store, outcome.request.source⟩
      ⟨outcome.after.store, outcome.rest⟩ [] [] := same ▸ Moved.nothing _
  obtain ⟨_, none⟩ := Outcome.of_moved moved
  have positive : 0 < headerLength := by decide
  subst same
  refine ⟨rfl, valid, ?_, fun answer => (by cases answer), fun answer => (by cases answer), ?_⟩
  · rw [none]
    rfl
  · rw [Outcome.rewritten, none]
    exact fun _ => ⟨positive, [], List.nil_prefix⟩

/-- A request comes back with a lawful outcome. -/
theorem append_answers (archive : Archive σ) (request : Request ρ)
    (valid : archive.placement.validate = .ok ()) :
    ∃ reply next rest, archive.append request.source request.count = .ok (reply, next, rest) ∧
      Outcome.Lawful ⟨archive, request, reply, next, rest⟩ := by
  unfold append
  cases growth : archive.placement.grow request.count with
  | error error => exact ⟨_, _, _, rfl, .refused archive request error valid⟩
  | ok grown =>
    obtain ⟨rfl, fits⟩ := Placement.of_grow growth
    have bound := Placement.validate_eq_ok_iff.mp fits
    dsimp only at bound
    obtain ⟨reply, last, given, accepted, run, followed, success, failure⟩ :=
      Appending.run_follows ⟨archive.store, request.source, archive.scratch⟩
        archive.placement.base archive.logicalSize request.count (by rw [Nat.add_comm]; exact bound)
    refine ⟨reply, _, _, by dsimp only; rw [run]; rfl, ?_⟩
    generalize same : (⟨archive, request, reply, _, _⟩ : Outcome σ ρ) = outcome
    have moved : Moved ⟨outcome.before.store, outcome.request.source⟩
        ⟨outcome.after.store, outcome.rest⟩ given accepted := same ▸ followed.moved
    obtain ⟨gave, entered⟩ := Outcome.of_moved moved
    -- A success has followed the plan to its end, a failure has not.
    cases reply with
    | ok value =>
      obtain ⟨all, whole, _⟩ := success value rfl
      subst same
      refine ⟨?_, fits, ?_, fun _ => ?_, fun _ => ?_, fun answer => (by cases answer)⟩
      · rw [Outcome.logged, gave]
        show _ = (⟨archive.placement.base, archive.logicalSize + given.length⟩ : Placement)
        rw [all]
        rfl
      · rw [entered]
        exact moved.contents
      · rw [gave]
        exact all
      · rw [entered, gave]
        exact whole
    | error error =>
      have wanted := exists_completes followed.length 0
      have front := followed.stored _ wanted
      have short := failure error rfl _ wanted
      subst same
      refine ⟨rfl, valid, ?_, fun answer => (by cases answer), fun answer => (by cases answer),
        fun _ => ?_⟩
      · rw [entered]
        exact moved.contents
      · rw [Outcome.rewritten, entered]
        exact ⟨Appending.count_header_lt front short, _, front⟩

theorem Holds.of_bytes {archive : Archive σ} {before log rest : Bytes}
    (placement : archive.placement = ⟨before.length, log.length⟩)
    (view : (LawfulStore.contents archive.store).bytes = before ++ Image.encode log ++ rest) :
    archive.Holds before.length log where
  placement := placement
  long := by
    rw [Memory.length, view, List.length_append, List.length_append, Image.length_encode]
    exact Nat.le_add_right _ _
  image := by
    rw [view, List.append_assoc, List.drop_left, ← Image.length_encode, List.take_left]

namespace Outcome.Lawful

variable {outcome : Outcome σ ρ} {base : Nat} {log : Bytes}

/-- No call changes what is in front of the stream. -/
theorem front (lawful : outcome.Lawful)
    (inside : outcome.before.placement.base ≤ (LawfulStore.contents outcome.before.store).length) :
    (LawfulStore.contents outcome.after.store).bytes.take outcome.before.placement.base =
      (LawfulStore.contents outcome.before.store).bytes.take outcome.before.placement.base := by
  rw [lawful.contents]
  apply Memory.take_replay inside
  intro entry member
  cases answer : outcome.reply.isOk with
  | true =>
    rw [lawful.stored answer] at member
    exact Appending.base_le_of_mem_plan member
  | false =>
    obtain ⟨_, data, front⟩ := lawful.stopped answer
    exact Appending.base_le_of_mem_plan (front.subset member)

/-- A call that has failed leaves the stream in the middle of an append. If it has come to the header
of the last chunk, that is torn. -/
theorem midway (lawful : outcome.Lawful) (failed : outcome.reply.isOk = false) {before after : Bytes}
    (placement : outcome.before.placement = ⟨before.length, log.length⟩)
    (view : (LawfulStore.contents outcome.before.store).bytes =
      before ++ Image.encode log ++ after) :
    ∃ data touched,
      Midway before log data after touched (LawfulStore.contents outcome.after.store).bytes ∧
        (touched = true ↔ outcome.Torn) := by
  have base : outcome.before.placement.base = before.length := by rw [placement]
  have size : outcome.before.logicalSize = log.length := by rw [logicalSize, placement]
  obtain ⟨short, data, front⟩ := lawful.stopped failed
  rw [Outcome.plan, base, size] at front
  obtain ⟨touched, midway, same⟩ := Midway.of_prefix view front
  rw [← lawful.contents] at midway
  have counted : 0 < outcome.rewritten ↔
      ∃ entry ∈ outcome.accepted, InTailHeader before.length log.length entry.position := by
    rw [Outcome.rewritten, base, size]
    simp
  refine ⟨data, touched, midway, ?_⟩
  rw [same, ← counted]
  -- A failed call has not come to the end of the header.
  constructor
  · intro positive
    exact ⟨failed, positive, short⟩
  · intro torn
    exact torn.2.1

/-- A call that has not torn a header keeps the stream whole: a successful one adds to it, and a
failed one leaves it as it was. -/
theorem holds (lawful : outcome.Lawful) (holds : outcome.before.Holds base log)
    (whole : ¬ outcome.Torn) : outcome.after.Holds base (log ++ outcome.logged) := by
  obtain ⟨placement, long, image⟩ := holds
  rw [← Image.length_encode] at long image
  obtain ⟨before, after, rfl, view⟩ := Memory.split_of_stored long image
  have base : outcome.before.placement.base = before.length := by rw [placement]
  have size : outcome.before.logicalSize = log.length := by rw [logicalSize, placement]
  have grown : outcome.after.placement = ⟨before.length, (log ++ outcome.logged).length⟩ := by
    rw [lawful.placement, base, size, List.length_append]
  cases answer : outcome.reply.isOk with
  | true =>
    have logged : outcome.logged = outcome.given := by rw [Outcome.logged, answer]; rfl
    have written := Midway.bytes_of_plan view outcome.given
    rw [← base, ← size, ← Outcome.plan, ← lawful.stored answer, ← lawful.contents,
      ← logged] at written
    exact .of_bytes grown written
  | false =>
    have logged : outcome.logged = [] := by rw [Outcome.logged, answer]; rfl
    obtain ⟨data, touched, midway, torn⟩ := lawful.midway answer placement view
    rw [logged, List.append_nil] at grown ⊢
    generalize bytes : (LawfulStore.contents outcome.after.store).bytes = now at midway
    cases midway with
    | body part upto => exact .of_bytes grown (bytes.trans (List.append_assoc _ part _))
    | header => exact absurd (torn.mp rfl) whole

end Outcome.Lawful

/-- All calls in a row come back, and as long as none of them has torn a header, the stream is the
image of the log. -/
theorem holds_appends (archive : Archive σ) (requests : List (Request ρ))
    (valid : archive.placement.validate = .ok ())
    (inside : archive.placement.base ≤ (LawfulStore.contents archive.store).length) :
    ∃ outcomes last, archive.appendEach requests = .ok (outcomes, last) ∧
      outcomes.map Outcome.request = requests ∧
      ∀ done outcome later, outcomes = done ++ outcome :: later →
        outcome.Lawful ∧
        (LawfulStore.contents outcome.after.store).bytes.take archive.placement.base =
          (LawfulStore.contents archive.store).bytes.take archive.placement.base ∧
        ∀ log, archive.Holds archive.placement.base log →
          (∀ call ∈ done ++ [outcome], ¬ call.Torn) →
          outcome.after.Holds archive.placement.base
            (log ++ (done ++ [outcome]).flatMap Outcome.logged) := by
  induction requests generalizing archive with
  | nil => exact ⟨[], archive, rfl, rfl, fun done _ _ none => absurd none.symm (by simp)⟩
  | cons request requests ih =>
    obtain ⟨reply, next, rest, call, lawful⟩ := archive.append_answers request valid
    have front := lawful.front inside
    have base : next.placement.base = archive.placement.base := by
      rw [lawful.placement]
    -- What is in front of the stream is still there, so the base is inside the store.
    have still : next.placement.base ≤ (LawfulStore.contents next.store).length := by
      have lengths := congrArg List.length front
      rw [List.length_take, List.length_take] at lengths
      rw [Memory.length] at inside ⊢
      dsimp only at lengths
      omega
    obtain ⟨outcomes, last, run, same, others⟩ := ih next lawful.valid still
    rw [base] at others
    refine ⟨⟨archive, request, reply, next, rest⟩ :: outcomes, last, ?_, ?_, ?_⟩
    · rw [appendEach, call, Checked.ok_bind]
      dsimp only
      rw [run]
      rfl
    · rw [List.map_cons, same]
    · -- The call is the first one, or one of those behind it.
      intro done outcome later split
      cases done with
      | nil =>
        obtain ⟨rfl, rfl⟩ := List.cons.inj split
        refine ⟨lawful, front, fun log whole untorn => ?_⟩
        rw [List.nil_append, List.flatMap_singleton]
        exact lawful.holds whole (untorn _ List.mem_cons_self)
      | cons first done =>
        obtain ⟨rfl, rfl⟩ := List.cons.inj split
        obtain ⟨sound, kept, holds⟩ := others done outcome later rfl
        refine ⟨sound, kept.trans front, fun log whole untorn => ?_⟩
        obtain ⟨first_untorn, rest_untorn⟩ := List.forall_mem_cons.mp untorn
        rw [List.cons_append, List.flatMap_cons, ← List.append_assoc]
        exact holds _ (lawful.holds whole first_untorn) rest_untorn

omit [TracedStore σ] in
theorem of_mount {store : σ} {placement : Placement} {archive : Archive σ}
    (mounted : mount store placement = .ok archive) :
    archive.placement = placement ∧ archive.store = store ∧
      archive.placement.validate = .ok () := by
  unfold mount at mounted
  cases valid : placement.validate with
  | error error => rw [valid] at mounted; cases mounted
  | ok _ =>
    rw [valid] at mounted
    cases mounted
    exact ⟨rfl, rfl, valid⟩

/-- An archive refines a log. Mounted on a stored stream, it comes back from any appends in a row.
After every call, what is in front of the stream is as it was, and a success has taken all the bytes
asked for. As long as no header has been torn, the stream is the image of the log that the successful
calls have added to. -/
theorem appends_refine_log (store : σ) (base : Nat) (log : Bytes) (archive : Archive σ)
    (mounted : mount store ⟨base, log.length⟩ = .ok archive)
    (long : base + encodedLength log.length ≤ (LawfulStore.contents store).length)
    (stored : ((LawfulStore.contents store).bytes.drop base).take (encodedLength log.length) =
      Image.encode log)
    (requests : List (Request ρ)) :
    ∃ outcomes last, archive.appendEach requests = .ok (outcomes, last) ∧
      outcomes.map Outcome.request = requests ∧
      ∀ done outcome later, outcomes = done ++ outcome :: later →
        (outcome.reply = .ok () → outcome.given.length = outcome.request.count) ∧
        (LawfulStore.contents outcome.after.store).bytes.take base =
          (LawfulStore.contents store).bytes.take base ∧
        ((∀ call ∈ done ++ [outcome], ¬ call.Torn) →
          outcome.after.Holds base (log ++ (done ++ [outcome]).flatMap Outcome.logged)) := by
  obtain ⟨placement, same_store, valid⟩ := of_mount mounted
  have start : archive.placement.base = base := by rw [placement]
  rw [← same_store] at long stored ⊢
  obtain ⟨outcomes, last, run, same, each⟩ := archive.holds_appends requests valid
    (by rw [start]; exact Nat.le_trans (Nat.le_add_right _ _) long)
  rw [start] at each
  refine ⟨outcomes, last, run, same, ?_⟩
  intro done outcome later split
  obtain ⟨lawful, front, holds⟩ := each done outcome later split
  refine ⟨?_, front, holds log ⟨placement, long, stored⟩⟩
  intro answer
  exact lawful.taken (by rw [answer]; rfl)

/-- Three requests on a stream of three bytes: one fails while it writes and leaves a byte behind the
stream, one succeeds through short and interrupted calls, and one runs out of bytes. -/
theorem log_of_three_requests :
    let medium : Medium := ⟨⟨9 :: Image.encode [1, 2, 3] ++ [7]⟩, true, [.limit 5],
      [.limit 1, .fail (.bare .other), .limit 1, .fail (.bare .interrupted)], []⟩
    let archive : Archive (Journal Medium) := ⟨.start medium, ⟨1, 3⟩, .zero⟩
    let requests : List (Request (Tap Feed)) :=
      [⟨.start ⟨[6, 6], []⟩, 2⟩, ⟨.start ⟨[4, 5, 6], [.limit 1]⟩, 2⟩, ⟨.start ⟨[6], []⟩, 2⟩]
    ∃ first second third last, archive.appendEach requests = .ok ([first, second, third], last) ∧
      [first, second, third].map (·.reply.isOk) = [false, true, false] ∧
      (LawfulStore.contents third.after.store).bytes.take 1 = [9] ∧
      third.after.Holds 1 [1, 2, 3, 4, 5] := by
  intro medium archive requests
  have seen : (archive.appendEach requests).toOption.map (fun (outcomes, _) =>
      outcomes.map fun outcome => (outcome.reply.isOk, outcome.rewritten, outcome.logged)) =
      some [(false, 0, []), (true, 4, [4, 5]), (false, 0, [])] := by
    decide +kernel
  obtain ⟨outcomes, last, run, _, each⟩ :=
    appends_refine_log (Journal.start medium) 1 [1, 2, 3] archive rfl (by decide +kernel)
      (by decide +kernel) requests
  rw [run] at seen
  obtain ⟨first, _, rfl, fact₁, facts⟩ := List.map_eq_cons_iff.mp (Option.some.inj seen)
  obtain ⟨second, _, rfl, fact₂, facts⟩ := List.map_eq_cons_iff.mp facts
  obtain ⟨third, _, rfl, fact₃, facts⟩ := List.map_eq_cons_iff.mp facts
  obtain rfl := List.map_eq_nil_iff.mp facts
  simp only [Prod.mk.injEq] at fact₁ fact₂ fact₃
  obtain ⟨_, front, holds⟩ := each [first, second] third [] rfl
  have kept : (9 :: Image.encode [1, 2, 3] ++ [7]).take 1 = [9] := by
    rw [List.cons_append, List.take_succ_cons, List.take_zero]
  have whole := holds (by simp [Outcome.Torn, fact₁, fact₂, fact₃])
  refine ⟨first, second, third, last, run, ?_, front.trans kept, ?_⟩
  · simp [fact₁, fact₂, fact₃]
  · simpa [fact₁, fact₂, fact₃] using whole

end Archive

end SealedStream
