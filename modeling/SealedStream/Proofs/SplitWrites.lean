import SealedStream.Proofs.Pushing
import SealedStream.Proofs.Traces

/-!
# Writing to memory in pieces

Pieces that are written one after the other through a cursor lie one behind the other in the store.
Two puts in a row are one put of all the bytes (`Memory.put_append`), so by induction on the pieces
any row of them leaves a store in memory as one put does (`Cursor.serve_memory`). A loop of writes that
has nothing to write makes no call, but a single write of nothing does, and the store grows up to its
offset. That is the only difference that the split can make (`Cursor.pieces_eq_whole_iff`).
-/
namespace SealedStream

namespace Memory

/-- A put right behind another one continues it. -/
theorem put_append (memory : Memory) (offset : Nat) (front back : Bytes) :
    (memory.put offset front).put (offset + front.length) back =
      memory.put offset (front ++ back) := by
  rw [Memory.mk.injEq]
  apply List.ext_getElem?
  intro index
  simp only [getElem?_put, List.length_append]
  -- The position is in front of both parts, in the first, in the second, or behind them.
  by_cases before : index < offset
  · have earlier : index < offset + front.length := by omega
    simp only [before, earlier, if_true]
    rfl
  by_cases first : index < offset + front.length
  · have inside : index < offset + (front.length + back.length) := by omega
    have held : index - offset < front.length := by omega
    simp only [before, first, inside, if_true, if_false, List.getElem?_append_left held,
      List.getElem?_eq_getElem held]
    rfl
  · have same : index < offset + front.length + back.length ↔
        index < offset + (front.length + back.length) := by omega
    have place : index - offset - front.length = index - (offset + front.length) := by omega
    simp only [before, first, same, if_false, List.getElem?_append_right (by omega :
      front.length ≤ index - offset), place]

/-- A put of nothing still grows the store up to its offset. -/
theorem put_nil (memory : Memory) (offset : Nat) :
    memory.put offset [] = ⟨memory.bytes ++ List.replicate (offset - memory.length) 0⟩ := by
  rw [put, List.append_nil, List.length_nil, Nat.add_zero, List.take_append_drop, padded]
  rfl

theorem put_nil_eq_self_iff {memory : Memory} {offset : Nat} :
    memory.put offset [] = memory ↔ offset ≤ memory.length := by
  constructor
  · intro same
    have length := memory.length_put offset []
    rw [same, List.length_nil] at length
    omega
  · intro inside
    rw [put_nil, Nat.sub_eq_zero_of_le inside, List.replicate_zero, List.append_nil]

section

variable {memory : Memory} {offset index : Nat} {content : Bytes}

/-- A put leaves what a store holds outside the content. -/
theorem getElem?_put_outside (held : index < memory.length)
    (apart : index < offset ∨ offset + content.length ≤ index) :
    (memory.put offset content).bytes[index]? = memory.bytes[index]? := by
  rw [getElem?_put]
  split
  next => rw [List.getElem?_eq_getElem held, Option.getD_some]
  next behind => rw [if_neg (by omega)]

/-- A put past the end fills the gap with zeros. -/
theorem getElem?_put_gap (behind : memory.length ≤ index) (before : index < offset) :
    (memory.put offset content).bytes[index]? = some 0 := by
  rw [getElem?_put, if_pos before, List.getElem?_eq_none behind]
  rfl

end

theorem writeAt_eq_ok (memory : Memory) {offset : Nat} {bytes : Bytes}
    (fits : offset + bytes.length < offsetLimit) :
    WritableStore.writeAt memory offset bytes =
      .ok (.ok bytes.length, memory.put offset bytes) := by
  show (memory.writeAt offset bytes).map _ = _
  rw [writeAt, Checked.add_eq_ok fits]
  rfl

end Memory

namespace Cursor

/-! ### Requests -/

/-- A piece that is written with a single write, or with as many writes as it takes. -/
inductive Request where
  | write (bytes : Bytes)
  | writeAll (bytes : Bytes)

namespace Request

def piece : Request → Bytes
  | write bytes => bytes
  | writeAll bytes => bytes

/-- Whether the store is called. A loop of writes that has nothing to write does not call it. -/
def calls : Request → Bool
  | write _ => true
  | writeAll bytes => !bytes.isEmpty

theorem piece_eq_nil {request : Request} (silent : request.calls = false) : request.piece = [] := by
  cases request with
  | write => cases silent
  | writeAll bytes => simpa [calls, piece] using silent

end Request

/-- All bytes of the pieces. -/
def pieces (requests : List Request) : Bytes :=
  requests.flatMap Request.piece

/-- Requests that do not call the store have nothing to write. -/
theorem pieces_eq_nil {requests : List Request} (silent : requests.any Request.calls = false) :
    pieces requests = [] := by
  apply List.flatMap_eq_nil_iff.mpr
  intro request member
  have quiet := List.any_eq_false.mp silent request member
  exact Request.piece_eq_nil (Bool.eq_false_iff.mpr quiet)

/-- Of requests with nothing to write, single writes alone call the store. -/
theorem any_calls_iff {requests : List Request} (none : pieces requests = []) :
    requests.any Request.calls = true ↔ ∃ bytes, Request.write bytes ∈ requests := by
  rw [List.any_eq_true]
  constructor
  · rintro ⟨request, member, called⟩
    cases request with
    | write bytes => exact ⟨bytes, member⟩
    | writeAll bytes =>
      obtain rfl : bytes = [] := List.flatMap_eq_nil_iff.mp none _ member
      cases called
  · rintro ⟨bytes, member⟩
    exact ⟨_, member, rfl⟩

section

variable {σ : Type} [WritableStore σ]

/-- Makes a request. The reply says how many bytes were written. -/
def answer (cursor : Cursor σ) : Request → Checked (Except IoError Nat × Cursor σ)
  | .write bytes => Sink.write cursor bytes
  | .writeAll bytes => do
    let (reply, cursor) ← Sink.writeAll cursor bytes
    return ((reply.map fun _ => bytes.length).mapError FinalError.toIo, cursor)

/-- Makes one request after the other until one fails. -/
def serve (cursor : Cursor σ) : List Request → Checked (Except IoError (List Nat) × Cursor σ)
  | [] => return (.ok [], cursor)
  | request :: requests =>
    (cursor.answer request).andThen fun count cursor =>
      (cursor.serve requests).andThen fun counts cursor => return (.ok (count :: counts), cursor)

end

/-! ### Stores in memory -/

variable (memory : Memory) {offset : Nat} {bytes : Bytes}

theorem write_memory (fits : offset + bytes.length < offsetLimit) :
    Sink.write (⟨memory, offset⟩ : Cursor Memory) bytes =
      .ok (.ok bytes.length, ⟨memory.put offset bytes, offset + bytes.length⟩) := by
  show Cursor.write _ _ = _
  rw [write, memory.writeAt_eq_ok fits, Checked.ok_bind]
  dsimp only
  rw [Checked.add_eq_ok fits]
  rfl

/-- The first write of a loop stores everything, if there is something to write at all. -/
theorem push_memory (fits : offset + bytes.length < offsetLimit) :
    Sink.push (⟨memory, offset⟩ : Cursor Memory) bytes =
      .ok (⟨bytes.length, none⟩,
        ⟨if bytes = [] then memory else memory.put offset bytes, offset + bytes.length⟩) := by
  by_cases none : bytes = []
  · subst none
    rw [Sink.push, if_pos rfl, if_pos rfl]
    rfl
  · have positive : bytes.length ≠ 0 := fun zero => none (List.length_eq_zero_iff.mp zero)
    -- The first write takes everything, so the second turn of the loop has nothing left.
    rw [Sink.push_of_part none positive (write_memory memory fits), List.drop_length, Sink.push,
      if_pos rfl, if_neg none]
    rfl

theorem writeAllAt_memory (fits : offset + bytes.length < offsetLimit) :
    WritableStore.writeAllAt memory offset bytes =
      .ok (.ok (), if bytes = [] then memory else memory.put offset bytes) := by
  rw [WritableStore.writeAllAt, push_memory memory fits]
  rfl

/-- A request writes its whole piece, and grows the store if it calls it. -/
theorem answer_memory (request : Request) (fits : offset + request.piece.length < offsetLimit) :
    answer (⟨memory, offset⟩ : Cursor Memory) request =
      .ok (.ok request.piece.length,
        ⟨if request.calls then memory.put offset request.piece else memory,
          offset + request.piece.length⟩) := by
  cases request with
  | write bytes => exact write_memory memory fits
  | writeAll bytes =>
    have fits : offset + bytes.length < offsetLimit := fits
    rw [answer, Sink.writeAll, push_memory memory fits]
    cases bytes <;> rfl

/-- A row of requests leaves a store in memory as one put of all the bytes does, unless none of them
calls it. -/
theorem serve_memory (requests : List Request)
    (fits : offset + (pieces requests).length < offsetLimit) :
    serve (⟨memory, offset⟩ : Cursor Memory) requests =
      .ok (.ok (requests.map fun request => request.piece.length),
        ⟨if requests.any Request.calls then memory.put offset (pieces requests) else memory,
          offset + (pieces requests).length⟩) := by
  induction requests generalizing memory offset with
  | nil => rfl
  | cons request requests ih =>
    have split : pieces (request :: requests) = request.piece ++ pieces requests :=
      List.flatMap_cons
    rw [split, List.length_append] at fits
    rw [serve, answer_memory memory request (by omega), Checked.ok_andThen, ih _ (by omega),
      Checked.ok_andThen, split, List.length_append, Nat.add_assoc, List.any_cons, List.map_cons]
    -- The store has been called by this request, by a later one, by both, or by none.
    cases now : request.calls with
    | false =>
      rw [Request.piece_eq_nil now]
      rfl
    | true =>
      cases later : requests.any Request.calls with
      | true => exact congrArg _ (by rw [← memory.put_append]; rfl)
      | false =>
        rw [pieces_eq_nil later, List.append_nil]
        rfl

/-- Pieces written one after the other lie one behind the other, and nothing else of a store in memory
changes but for zeros in a gap before them. The store is the one that writing all the bytes at once
leaves, unless there are none, the start is past the end, and a single write is made: then zeros fill
the gap though there is nothing behind it. -/
theorem pieces_eq_whole_iff (start : Nat) (requests : List Request)
    (fits : start + (pieces requests).length < offsetLimit) :
    ∃ store, serve (⟨memory, start⟩ : Cursor Memory) requests =
        .ok (.ok (requests.map fun request => request.piece.length),
          ⟨store, start + (pieces requests).length⟩) ∧
      (WritableStore.writeAllAt memory start (pieces requests) = .ok (.ok (), store) ↔
        pieces requests ≠ [] ∨ start ≤ memory.length ∨
          ¬ ∃ bytes, Request.write bytes ∈ requests) ∧
      (∀ position, start ≤ position → position < start + (pieces requests).length →
        store.bytes[position]? = (pieces requests)[position - start]?) ∧
      (∀ position < memory.length,
        position < start ∨ start + (pieces requests).length ≤ position →
          store.bytes[position]? = memory.bytes[position]?) ∧
      (pieces requests ≠ [] →
        store.length = max memory.length (start + (pieces requests).length) ∧
        ∀ position, memory.length ≤ position → position < start → store.bytes[position]? = some 0) ∧
      (pieces requests = [] →
        ((∃ bytes, Request.write bytes ∈ requests) →
          store.bytes = memory.bytes ++ List.replicate (start - memory.length) 0) ∧
        ((¬ ∃ bytes, Request.write bytes ∈ requests) → store = memory)) := by
  have called : pieces requests ≠ [] → requests.any Request.calls = true :=
    fun some => by
      apply Classical.byContradiction
      intro silent
      exact some (pieces_eq_nil (Bool.eq_false_iff.mpr silent))
  refine ⟨_, serve_memory memory requests fits, ?whole, ?window, ?outside, ?some, ?none⟩
  case whole =>
    -- Writing nothing at once leaves the store alone; the row does so only without a call or a gap.
    rw [writeAllAt_memory memory fits]
    by_cases none : pieces requests = []
    · rw [if_pos none, none, ← any_calls_iff none]
      cases requests.any Request.calls with
      | false => simp
      | true => simp [@eq_comm _ memory, Memory.put_nil_eq_self_iff]
    · rw [if_neg none, called none]
      simp [none]
  case window =>
    intro position from_start inside
    have some : pieces requests ≠ [] := by
      apply List.length_pos_iff.mp
      omega
    rw [called some, if_pos rfl, Memory.getElem?_put, if_neg (Nat.not_lt_of_le from_start),
      if_pos inside]
  case outside =>
    intro position held apart
    split
    · exact Memory.getElem?_put_outside held apart
    · rfl
  case some =>
    intro some
    rw [called some, if_pos rfl]
    exact ⟨Memory.length_put _ _ _, fun position behind before =>
      Memory.getElem?_put_gap behind before⟩
  case none =>
    intro none
    refine ⟨fun single => ?_, fun loops => if_neg fun calls => loops ((any_calls_iff none).mp calls)⟩
    rw [(any_calls_iff none).mpr single, if_pos rfl, none, Memory.put_nil]

/-- Two bytes and a gap: nothing, a byte, nothing again and two bytes more, written singly and in
loops, leave what writing the three bytes at once leaves. -/
theorem three_bytes_in_pieces :
    let memory : Memory := ⟨[1, 2]⟩
    let requests : List Request := [.write [], .write [7], .writeAll [], .writeAll [8, 9]]
    3 + (pieces requests).length < offsetLimit ∧
    ∃ store, serve (⟨memory, 3⟩ : Cursor Memory) requests = .ok (.ok [0, 1, 0, 2], ⟨store, 6⟩) ∧
      WritableStore.writeAllAt memory 3 [7, 8, 9] = .ok (.ok (), store) ∧ store.length = 6 ∧
      store.bytes[2]? = some 0 := by
  intro memory requests
  have fits : 3 + (pieces requests).length < offsetLimit := by decide
  obtain ⟨store, run, whole, _, _, grown, _⟩ := pieces_eq_whole_iff memory 3 requests fits
  obtain ⟨length, gap⟩ := grown (by decide)
  exact ⟨fits, store, run, whole.mpr (.inl (by decide)), length, gap 2 (by decide) (by decide)⟩

/-- A single write of nothing past the end puts zeros there, and writing nothing at once does not. -/
theorem gap_filled_by_nothing :
    let memory : Memory := ⟨[1]⟩
    serve (⟨memory, 3⟩ : Cursor Memory) [.write []] = .ok (.ok [0], ⟨⟨[1, 0, 0]⟩, 3⟩) ∧
    WritableStore.writeAllAt memory 3 [] = .ok (.ok (), memory) := by
  intro memory
  exact ⟨serve_memory memory [.write []] (by decide), writeAllAt_memory memory (by decide)⟩

end Cursor

end SealedStream
