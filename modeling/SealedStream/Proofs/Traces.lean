import SealedStream.Device.Feed
import SealedStream.Device.Medium
import SealedStream.Device.Outlet

/-!
# Traces of devices

Writing to a store can stop after any byte. So a store is watched byte by byte: its trace lists the
bytes that its writes have stored, each with its position, and its contents are what replaying the
trace makes of the contents at the start. A source is watched by what it has given. The classes say
this of devices that may otherwise split, interrupt and fail as they like; a `Journal` and a `Tap`
watch devices that keep no record themselves.
-/
namespace SealedStream

/-! ### Entries and their replay -/

/-- A byte that a store has taken. -/
structure Entry where
  position : Nat
  byte : UInt8
deriving DecidableEq

/-- The entries of consecutive bytes. -/
def Entry.row (offset : Nat) : Bytes → List Entry
  | [] => []
  | byte :: bytes => ⟨offset, byte⟩ :: row (offset + 1) bytes

namespace Entry

@[simp] theorem row_nil (offset : Nat) : row offset [] = [] := rfl

@[simp] theorem length_row (offset : Nat) (bytes : Bytes) :
    (row offset bytes).length = bytes.length := by
  induction bytes generalizing offset with
  | nil => rfl
  | cons byte bytes ih => simp [row, ih]

@[simp] theorem map_byte_row (offset : Nat) (bytes : Bytes) :
    (row offset bytes).map Entry.byte = bytes := by
  induction bytes generalizing offset with
  | nil => rfl
  | cons byte bytes ih => simp [row, ih]

theorem row_append (offset : Nat) (front back : Bytes) :
    row offset (front ++ back) = row offset front ++ row (offset + front.length) back := by
  induction front generalizing offset with
  | nil => rfl
  | cons byte front ih =>
    rw [List.cons_append, row, ih, row, List.cons_append, List.length_cons, Nat.add_assoc,
      Nat.add_comm 1]

/-- A front part of a row is the row of a front part. -/
theorem take_row (offset : Nat) (bytes : Bytes) (count : Nat) :
    (row offset bytes).take count = row offset (bytes.take count) := by
  induction bytes generalizing offset count with
  | nil => simp
  | cons byte bytes ih =>
    cases count with
    | zero => rfl
    | succ count => rw [row, List.take_succ_cons, List.take_succ_cons, row, ih]

theorem row_take_prefix (offset : Nat) (bytes : Bytes) (count : Nat) :
    row offset (bytes.take count) <+: row offset bytes := by
  rw [← take_row]
  exact List.take_prefix _ _

theorem position_of_mem_row {offset : Nat} {bytes : Bytes} {entry : Entry}
    (member : entry ∈ row offset bytes) :
    offset ≤ entry.position ∧ entry.position < offset + bytes.length := by
  induction bytes generalizing offset with
  | nil => cases member
  | cons byte bytes ih =>
    rw [List.length_cons]
    rcases List.mem_cons.mp member with rfl | rest
    · exact ⟨Nat.le_refl _, by dsimp only; omega⟩
    · have := ih rest
      omega

end Entry

namespace Memory

def apply (memory : Memory) (entry : Entry) : Memory :=
  memory.put entry.position [entry.byte]

/-- The store after more bytes have been stored one by one. -/
def replay (memory : Memory) (entries : List Entry) : Memory :=
  entries.foldl apply memory

@[simp] theorem replay_nil (memory : Memory) : memory.replay [] = memory := rfl

theorem replay_append (memory : Memory) (first second : List Entry) :
    memory.replay (first ++ second) = (memory.replay first).replay second :=
  List.foldl_append

/-- A put within a store, or right behind it, replaces bytes and leaves no gap. -/
theorem bytes_put {memory : Memory} {offset : Nat} (inside : offset ≤ memory.length)
    (content : Bytes) :
    (memory.put offset content).bytes =
      memory.bytes.take offset ++ content ++ memory.bytes.drop (offset + content.length) := by
  have length : memory.length = memory.bytes.length := rfl
  -- Nothing of the padding is left behind the content.
  have padding : (List.replicate (offset + content.length - memory.bytes.length) (0 : UInt8)).drop
      (offset + content.length - memory.bytes.length) = [] := by
    apply List.drop_of_length_le
    exact Nat.le_of_eq List.length_replicate
  rw [put, padded]
  dsimp only
  rw [List.take_append_of_le_length (by omega), List.drop_append, padding, List.append_nil]

theorem getElem?_padded (bytes : Bytes) (length index : Nat) :
    (padded bytes length)[index]? =
      if index < length then some (bytes[index]?.getD 0) else bytes[index]? := by
  rw [padded]
  by_cases inside : index < bytes.length
  · rw [List.getElem?_append_left inside, List.getElem?_eq_getElem inside]
    simp
  · rw [List.getElem?_append_right (by omega), List.getElem?_replicate,
      List.getElem?_eq_none (by omega : bytes.length ≤ index)]
    by_cases short : index < length
    · rw [if_pos short, if_pos (by omega)]
      rfl
    · rw [if_neg short, if_neg (by omega)]

/-- After a put, a position in front of it holds what it held, or a zero if it held nothing. -/
theorem getElem?_put (memory : Memory) (offset : Nat) (content : Bytes) (index : Nat) :
    (memory.put offset content).bytes[index]? =
      if index < offset then some (memory.bytes[index]?.getD 0)
      else if index < offset + content.length then content[index - offset]?
      else memory.bytes[index]? := by
  have whole := length_padded memory.bytes (offset + content.length)
  have front : ((padded memory.bytes (offset + content.length)).take offset).length = offset :=
    List.length_take_of_le (by omega)
  rw [put]
  dsimp only
  -- The position is in front of the content, in it, or behind it.
  by_cases before : index < offset
  · rw [if_pos before, List.append_assoc, List.getElem?_append_left (by omega),
      List.getElem?_take_of_lt before, getElem?_padded, if_pos (by omega)]
  · rw [if_neg before, List.append_assoc, List.getElem?_append_right (by omega), front]
    by_cases inside : index < offset + content.length
    · rw [if_pos inside, List.getElem?_append_left (by omega)]
    · have place : offset + content.length + (index - offset - content.length) = index := by omega
      rw [if_neg inside, List.getElem?_append_right (by omega), List.getElem?_drop, place,
        getElem?_padded, if_neg inside]

theorem put_cons (memory : Memory) (offset : Nat) (byte : UInt8) {bytes : Bytes}
    (some : bytes ≠ []) :
    (memory.put offset [byte]).put (offset + 1) bytes = memory.put offset (byte :: bytes) := by
  have positive : 0 < bytes.length := List.length_pos_iff.mpr some
  rw [Memory.mk.injEq]
  apply List.ext_getElem?
  intro index
  simp only [getElem?_put, List.length_cons, List.length_nil, Nat.zero_add]
  by_cases before : index < offset
  · have next : index < offset + 1 := by omega
    simp only [before, next, if_true]
    rfl
  · by_cases first : index = offset
    · subst first
      have next : index < index + 1 := Nat.lt_succ_self index
      have inside : index < index + (bytes.length + 1) := by omega
      simp only [before, next, inside, if_true, if_false, Nat.sub_self]
      rfl
    · have behind : ¬ index < offset + 1 := by omega
      have same : index < offset + 1 + bytes.length ↔ index < offset + (bytes.length + 1) := by omega
      have place : index - offset = index - (offset + 1) + 1 := by omega
      simp only [before, behind, same, if_false, place, List.getElem?_cons_succ]

/-- Bytes stored one by one are a put. -/
theorem replay_row (memory : Memory) (offset : Nat) {bytes : Bytes} (some : bytes ≠ []) :
    memory.replay (Entry.row offset bytes) = memory.put offset bytes := by
  induction bytes generalizing memory offset with
  | nil => exact absurd rfl some
  | cons byte bytes ih =>
    rw [Entry.row, replay, List.foldl_cons, ← replay]
    -- A put of nothing may still pad, so the last byte is a case of its own.
    by_cases last : bytes = []
    · rw [last]
      rfl
    · rw [ih _ _ last, apply, put_cons _ _ _ last]

/-- What storing bytes one by one within a store, or right behind it, makes of its contents. -/
theorem bytes_replay_row {memory : Memory} {offset : Nat} (inside : offset ≤ memory.length)
    (bytes : Bytes) :
    (memory.replay (Entry.row offset bytes)).bytes =
      memory.bytes.take offset ++ bytes ++ memory.bytes.drop (offset + bytes.length) := by
  by_cases none : bytes = []
  · rw [none]
    simp
  · rw [replay_row memory offset none, bytes_put inside]

/-- Bytes stored one by one behind the front of the contents replace what is there. -/
theorem bytes_replay_behind {memory : Memory} {front rest : Bytes}
    (view : memory.bytes = front ++ rest) (bytes : Bytes) :
    (memory.replay (Entry.row front.length bytes)).bytes =
      front ++ bytes ++ rest.drop bytes.length := by
  have inside : front.length ≤ memory.length := by
    rw [Memory.length, view, List.length_append]
    exact Nat.le_add_right _ _
  rw [bytes_replay_row inside, view, List.take_left, ← List.drop_drop, List.drop_left]

end Memory

/-! ### Watched stores -/

/-- A store whose every read comes back, and every write that ends at an offset. What a read hands out
and what becomes of a write is left open. -/
class TotalStore (σ : Type) extends ReadableStore σ, WritableStore σ where
  readAt_answers (store : σ) (offset room : Nat) :
    ∃ reply next, readAt store offset room = .ok (reply, next)
  writeAt_answers (store : σ) (offset : Nat) (bytes : Bytes) :
    offset + bytes.length < offsetLimit →
      ∃ reply next, writeAt store offset bytes = .ok (reply, next)

/-- A store whose reads show its contents and whose writes store just what they report. Any call may
come short or fail. -/
class LawfulStore (σ : Type) extends ReadableStore σ, WritableStore σ where
  contents : σ → Memory
  readAt_answers (store : σ) (offset room : Nat) :
    ∃ reply next, readAt store offset room = .ok (reply, next)
  readAt_prefix {store next : σ} {offset room : Nat} {bytes : Bytes} :
    readAt store offset room = .ok (.ok bytes, next) → bytes <+: (contents store).bytes.drop offset
  contents_readAt {store next : σ} {offset room : Nat} {reply : Except IoError Bytes} :
    readAt store offset room = .ok (reply, next) → contents next = contents store
  writeAt_answers (store : σ) (offset : Nat) (bytes : Bytes) :
    offset + bytes.length < offsetLimit →
      ∃ reply next, writeAt store offset bytes = .ok (reply, next)
  contents_writeAt {store next : σ} {offset taken : Nat} {bytes : Bytes} : bytes ≠ [] →
    writeAt store offset bytes = .ok (.ok taken, next) →
      contents next = (contents store).replay (Entry.row offset (bytes.take taken))
  contents_writeAt_error {store next : σ} {offset : Nat} {bytes : Bytes} {error : IoError} :
    writeAt store offset bytes = .ok (.error error, next) → contents next = contents store

instance : TotalStore Memory where
  readAt_answers _ _ _ := ⟨_, _, rfl⟩
  writeAt_answers memory offset bytes fits := by
    refine ⟨.ok bytes.length, memory.put offset bytes, ?_⟩
    show (memory.writeAt offset bytes).map _ = _
    rw [Memory.writeAt, Checked.add_eq_ok fits]
    rfl

instance {σ : Type} [LawfulStore σ] : TotalStore σ where
  readAt_answers := LawfulStore.readAt_answers
  writeAt_answers := LawfulStore.writeAt_answers

/-- A store that also tells which bytes its writes have stored so far, in their order. -/
class TracedStore (σ : Type) extends LawfulStore σ where
  trace : σ → List Entry
  trace_readAt {store next : σ} {offset room : Nat} {reply : Except IoError Bytes} :
    readAt store offset room = .ok (reply, next) → trace next = trace store
  trace_writeAt {store next : σ} {offset taken : Nat} {bytes : Bytes} : bytes ≠ [] →
    writeAt store offset bytes = .ok (.ok taken, next) →
      trace next = trace store ++ Entry.row offset (bytes.take taken)
  trace_writeAt_error {store next : σ} {offset : Nat} {bytes : Bytes} {error : IoError} :
    writeAt store offset bytes = .ok (.error error, next) → trace next = trace store

/-- A store with a record of the bytes stored. -/
structure Journal (σ : Type) where
  store : σ
  entries : List Entry

namespace Journal

variable {σ : Type}

def start (store : σ) : Journal σ := ⟨store, []⟩

instance [ReadableStore σ] : ReadableStore (Journal σ) where
  readAt journal offset room := do
    let (reply, store) ← ReadableStore.readAt journal.store offset room
    return (reply, { journal with store })
  readInterruptions journal := ReadableStore.readInterruptions journal.store
  length_le_room call := by
    obtain ⟨⟨reply, store⟩, inner, call⟩ := Checked.bind_eq_ok_iff.mp call
    cases call
    exact ReadableStore.length_le_room inner
  readInterruptions_le call := by
    obtain ⟨⟨reply, store⟩, inner, call⟩ := Checked.bind_eq_ok_iff.mp call
    cases call
    exact ReadableStore.readInterruptions_le inner
  readInterruptions_lt call := by
    obtain ⟨⟨reply, store⟩, inner, call⟩ := Checked.bind_eq_ok_iff.mp call
    cases call
    exact ReadableStore.readInterruptions_lt inner

/-- The journal after a write with that reply. -/
def enter (journal : Journal σ) (offset : Nat) (bytes : Bytes) (store : σ) :
    Except IoError Nat → Journal σ
  | .ok taken => ⟨store, journal.entries ++ Entry.row offset (bytes.take taken)⟩
  | .error _ => ⟨store, journal.entries⟩

theorem store_enter (journal : Journal σ) (offset : Nat) (bytes : Bytes) (store : σ)
    (reply : Except IoError Nat) : (journal.enter offset bytes store reply).store = store := by
  cases reply <;> rfl

instance [WritableStore σ] : WritableStore (Journal σ) where
  writeAt journal offset bytes := do
    let (reply, store) ← WritableStore.writeAt journal.store offset bytes
    return (reply, journal.enter offset bytes store reply)
  writeInterruptions journal := WritableStore.writeInterruptions journal.store
  taken_le_length call := by
    obtain ⟨⟨reply, store⟩, inner, call⟩ := Checked.bind_eq_ok_iff.mp call
    cases call
    exact WritableStore.taken_le_length inner
  writeInterruptions_le call := by
    obtain ⟨⟨reply, store⟩, inner, call⟩ := Checked.bind_eq_ok_iff.mp call
    cases call
    rw [store_enter]
    exact WritableStore.writeInterruptions_le inner
  writeInterruptions_lt call := by
    obtain ⟨⟨reply, store⟩, inner, call⟩ := Checked.bind_eq_ok_iff.mp call
    cases call
    exact WritableStore.writeInterruptions_lt inner

theorem readAt_inner [ReadableStore σ] {journal next : Journal σ} {offset room : Nat}
    {reply : Except IoError Bytes}
    (call : ReadableStore.readAt journal offset room = .ok (reply, next)) :
    ReadableStore.readAt journal.store offset room = .ok (reply, next.store) ∧
      next.entries = journal.entries := by
  obtain ⟨⟨answer, store⟩, inner, call⟩ := Checked.bind_eq_ok_iff.mp call
  cases call
  exact ⟨inner, rfl⟩

theorem writeAt_inner [WritableStore σ] {journal next : Journal σ} {offset : Nat} {bytes : Bytes}
    {reply : Except IoError Nat}
    (call : WritableStore.writeAt journal offset bytes = .ok (reply, next)) :
    ∃ store, WritableStore.writeAt journal.store offset bytes = .ok (reply, store) ∧
      next = journal.enter offset bytes store reply := by
  obtain ⟨⟨answer, store⟩, inner, call⟩ := Checked.bind_eq_ok_iff.mp call
  cases call
  exact ⟨store, inner, rfl⟩

instance [LawfulStore σ] : TracedStore (Journal σ) where
  contents journal := LawfulStore.contents journal.store
  trace := entries
  readAt_answers journal offset room := by
    obtain ⟨reply, next, call⟩ := LawfulStore.readAt_answers journal.store offset room
    exact ⟨reply, { journal with store := next }, Checked.bind_eq_ok_iff.mpr ⟨_, call, rfl⟩⟩
  readAt_prefix call := LawfulStore.readAt_prefix (readAt_inner call).1
  contents_readAt call := LawfulStore.contents_readAt (readAt_inner call).1
  trace_readAt call := (readAt_inner call).2
  writeAt_answers journal offset bytes fits := by
    obtain ⟨reply, next, call⟩ := LawfulStore.writeAt_answers journal.store offset bytes fits
    exact ⟨reply, _, Checked.bind_eq_ok_iff.mpr ⟨_, call, rfl⟩⟩
  contents_writeAt some call := by
    obtain ⟨store, inner, rfl⟩ := writeAt_inner call
    exact LawfulStore.contents_writeAt some inner
  contents_writeAt_error call := by
    obtain ⟨store, inner, rfl⟩ := writeAt_inner call
    exact LawfulStore.contents_writeAt_error inner
  trace_writeAt some call := by
    obtain ⟨store, inner, rfl⟩ := writeAt_inner call
    rfl
  trace_writeAt_error call := by
    obtain ⟨store, inner, rfl⟩ := writeAt_inner call
    rfl

end Journal

/-- What a medium stores of an offer, or why it does not. -/
theorem Medium.store_answers (medium : Medium) (offset : Nat) (offered part : Bytes)
    (fits : offset + part.length < offsetLimit) :
    ∃ reply next, medium.store offset offered part = .ok (reply, next) := by
  rw [Medium.store, Memory.writeAt, Checked.add_eq_ok fits, Checked.ok_bind]
  split
  next => exact ⟨_, _, rfl⟩
  next =>
    split <;> exact ⟨_, _, rfl⟩

theorem Medium.contents_store {medium next : Medium} {offset : Nat} {offered part : Bytes}
    {reply : Except IoError Nat} (call : medium.store offset offered part = .ok (reply, next)) :
    (∀ taken, reply = .ok taken → offered ≠ [] →
      next.contents = medium.contents.replay (Entry.row offset (part.take taken))) ∧
    (∀ error, reply = .error error → next.contents = medium.contents) := by
  unfold Medium.store at call
  split at call
  -- An offer of which the script left nothing never reaches the contents.
  next none =>
    cases call
    exact ⟨fun taken same _ => (by cases same; rfl), fun error same => (by cases same)⟩
  next given =>
    split at call
    next =>
      cases result : medium.contents.writeAt offset part with
      | error trap => rw [result] at call; cases call
      | ok answer =>
        obtain ⟨count, contents⟩ := answer
        rw [result] at call
        cases call
        obtain ⟨_, _, stored⟩ := Checked.bind_eq_ok_iff.mp result
        cases stored
        refine ⟨fun taken same some => ?_, fun error same => (by cases same)⟩
        cases same
        rw [List.take_length, Memory.replay_row _ _ fun none => given ⟨none, some⟩]
        rfl
    next =>
      cases call
      exact ⟨fun taken same => (by cases same), fun error same => rfl⟩

instance : LawfulStore Medium where
  contents := Medium.contents
  readAt_answers medium offset room := ⟨_, _, rfl⟩
  readAt_prefix call := by
    replace call := Except.ok.inj call
    unfold Medium.readAt at call
    split at call <;> cases call <;> exact List.take_prefix _ _
  contents_readAt call := by
    replace call := Except.ok.inj call
    unfold Medium.readAt at call
    split at call <;> cases call <;> rfl
  writeAt_answers medium offset bytes fits := by
    show ∃ reply next, Medium.writeAt medium offset bytes = .ok (reply, next)
    unfold Medium.writeAt
    -- The script is over, limits the write, or lets it fail.
    split
    next => exact Medium.store_answers _ _ _ _ fits
    next count rest _ =>
      apply Medium.store_answers
      rw [List.length_take]
      omega
    next => exact ⟨_, _, rfl⟩
  contents_writeAt {medium _ offset taken bytes} some call := by
    change medium.writeAt offset bytes = _ at call
    unfold Medium.writeAt at call
    split at call
    next => exact (Medium.contents_store call).1 taken rfl some
    next count rest _ =>
      have bound := (Medium.store_reply call).1 taken rfl
      have stored := (Medium.contents_store call).1 taken rfl some
      rw [List.length_take] at bound
      rw [List.take_take, Nat.min_eq_left (by omega)] at stored
      exact stored
    next => cases call
  contents_writeAt_error {medium _ offset bytes error} call := by
    change medium.writeAt offset bytes = _ at call
    unfold Medium.writeAt at call
    split at call
    next => exact (Medium.contents_store call).2 error rfl
    next => exact (Medium.contents_store call).2 error rfl
    next =>
      cases call
      rfl

/-! ### Watched sources -/

/-- A source whose every read comes back, with bytes, with nothing or with an error. -/
class TotalSource (ρ : Type) extends Source ρ where
  read_answers (source : ρ) (room : Nat) : ∃ reply next, read source room = .ok (reply, next)

/-- A source that also tells what its reads have given so far. -/
class TracedSource (ρ : Type) extends TotalSource ρ where
  given : ρ → Bytes
  given_read {source next : ρ} {room : Nat} {bytes : Bytes} :
    read source room = .ok (.ok bytes, next) → given next = given source ++ bytes
  given_read_error {source next : ρ} {room : Nat} {error : IoError} :
    read source room = .ok (.error error, next) → given next = given source

instance : TotalSource Feed where
  read_answers _ _ := ⟨_, _, rfl⟩

/-- A source with a record of what it has given. -/
structure Tap (ρ : Type) where
  source : ρ
  given : Bytes

namespace Tap

variable {ρ : Type}

def start (source : ρ) : Tap ρ := ⟨source, []⟩

/-- The tap after a read with that reply. -/
def pass (tap : Tap ρ) (source : ρ) : Except IoError Bytes → Tap ρ
  | .ok bytes => ⟨source, tap.given ++ bytes⟩
  | .error _ => ⟨source, tap.given⟩

theorem source_pass (tap : Tap ρ) (source : ρ) (reply : Except IoError Bytes) :
    (tap.pass source reply).source = source := by
  cases reply <;> rfl

instance [Source ρ] : Source (Tap ρ) where
  read tap room := do
    let (reply, source) ← Source.read tap.source room
    return (reply, tap.pass source reply)
  interruptions tap := Source.interruptions tap.source
  length_le_room call := by
    obtain ⟨⟨reply, source⟩, inner, call⟩ := Checked.bind_eq_ok_iff.mp call
    cases call
    exact Source.length_le_room inner
  interruptions_le call := by
    obtain ⟨⟨reply, source⟩, inner, call⟩ := Checked.bind_eq_ok_iff.mp call
    cases call
    rw [source_pass]
    exact Source.interruptions_le inner
  interruptions_lt call := by
    obtain ⟨⟨reply, source⟩, inner, call⟩ := Checked.bind_eq_ok_iff.mp call
    cases call
    exact Source.interruptions_lt inner

instance [TotalSource ρ] : TracedSource (Tap ρ) where
  read_answers tap room := by
    obtain ⟨reply, next, call⟩ := TotalSource.read_answers tap.source room
    exact ⟨reply, _, Checked.bind_eq_ok_iff.mpr ⟨_, call, rfl⟩⟩
  given := given
  given_read call := by
    obtain ⟨⟨reply, source⟩, inner, call⟩ := Checked.bind_eq_ok_iff.mp call
    cases call
    rfl
  given_read_error call := by
    obtain ⟨⟨reply, source⟩, inner, call⟩ := Checked.bind_eq_ok_iff.mp call
    cases call
    rfl

end Tap

/-! ### Watched sinks -/

/-- A sink whose every write comes back, with a count or with an error. -/
class TotalSink (κ : Type) extends Sink κ where
  write_answers (sink : κ) (bytes : Bytes) : ∃ reply next, write sink bytes = .ok (reply, next)

/-- A sink that tells what its writes have taken so far. Any call may come short, take nothing or
fail; a flush takes nothing. -/
class TracedSink (κ : Type) extends Sink κ where
  taken : κ → Bytes
  write_answers (sink : κ) (bytes : Bytes) : ∃ reply next, write sink bytes = .ok (reply, next)
  taken_write {sink next : κ} {bytes : Bytes} {count : Nat} :
    write sink bytes = .ok (.ok count, next) → taken next = taken sink ++ bytes.take count
  taken_write_error {sink next : κ} {bytes : Bytes} {error : IoError} :
    write sink bytes = .ok (.error error, next) → taken next = taken sink
  taken_flush (sink : κ) : taken (flush sink).2 = taken sink

instance {κ : Type} [TracedSink κ] : TotalSink κ where
  write_answers := TracedSink.write_answers

instance : TotalSink Drain where
  write_answers _ _ := ⟨_, _, rfl⟩

instance : TracedSink Outlet where
  taken := Outlet.taken
  write_answers _ _ := ⟨_, _, rfl⟩
  taken_write {sink _ bytes _} call := by
    replace call := Except.ok.inj call
    unfold Outlet.write at call
    -- The count that is reported is the length of the part that is kept.
    have kept : ∀ count, bytes.take (bytes.take count).length = bytes.take count := by
      intro count
      rw [List.length_take, List.take_eq_take_iff]
      omega
    split at call
    next => cases call; exact congrArg _ (kept _).symm
    next => cases call; exact congrArg _ (kept _).symm
    next => cases call
  taken_write_error call := by
    replace call := Except.ok.inj call
    unfold Outlet.write at call
    split at call <;> cases call
    rfl
  taken_flush outlet := by
    show (Outlet.flush outlet).2.taken = outlet.taken
    unfold Outlet.flush
    split <;> rfl

end SealedStream
