import SealedStream.Proofs.Loops
import SealedStream.Proofs.StreamEncoding
import SealedStream.Writer.Appending

/-!
# Encoding into a store

A cursor writes to a store as to a sink, as long as it keeps below the offset limit. If no write of
the store fails for good, none of the cursor stalls, so a stream that is begun behind everything in
the store becomes the image of the data.
-/
namespace SealedStream

open Layout

variable {σ ρ : Type} [LawfulStore σ]

/-- A store that takes everything: below the offset limit, each write of some bytes stores at least
one of them, or is interrupted. -/
def LawfulStore.Stores (store : σ) : Prop :=
  ∃ Inv : σ → Prop, Inv store ∧ ∀ store next offset bytes reply, Inv store → bytes ≠ [] →
    offset + bytes.length < offsetLimit →
    WritableStore.writeAt store offset bytes = .ok (reply, next) →
      Inv next ∧ (∀ count, reply = .ok count → 0 < count) ∧
        ∀ error, reply = .error error → error.kind = .interrupted

theorem LawfulStore.Stores.writeAt {store next : σ} {offset : Nat} {bytes : Bytes}
    {reply : Except IoError Nat} (stores : Stores store) (some : bytes ≠ [])
    (fits : offset + bytes.length < offsetLimit)
    (call : WritableStore.writeAt store offset bytes = .ok (reply, next)) :
    Stores next ∧ (∀ count, reply = .ok count → 0 < count) ∧
      ∀ error, reply = .error error → error.kind = .interrupted := by
  obtain ⟨Inv, start, keeps⟩ := stores
  obtain ⟨after, progress⟩ := keeps store next offset bytes reply start some fits call
  exact ⟨⟨Inv, after, keeps⟩, progress⟩

/-- A writable medium stores what its script leaves of an offer. -/
theorem Medium.store_of_writable {medium : Medium} (writable : medium.writable = true) (offset : Nat)
    (offered : Bytes) {part : Bytes} (some : part ≠ []) (fits : offset + part.length < offsetLimit) :
    ∃ next, medium.store offset offered part = .ok (.ok part.length, next) ∧
      next.writable = true ∧ next.writeScript = medium.writeScript := by
  rw [Medium.store, if_neg fun none => some none.1, if_pos writable, Memory.writeAt,
    Checked.add_eq_ok fits]
  exact ⟨_, rfl, writable, rfl⟩

theorem Medium.stores {medium : Medium} (writable : medium.writable = true)
    (gentle : ∀ event ∈ medium.writeScript, event.Gentle) : LawfulStore.Stores medium := by
  -- What is left of a gentle script is gentle.
  refine ⟨fun other => other.writable = true ∧ ∀ event ∈ other.writeScript, event.Gentle,
    ⟨writable, gentle⟩, ?_⟩
  intro medium next offset bytes reply inv some fits call
  obtain ⟨writable, gentle⟩ := inv
  have stored : ∀ (medium : Medium) (part : Bytes), medium.writable = true → part ≠ [] →
      part.length ≤ bytes.length → (∀ event ∈ medium.writeScript, event.Gentle) →
      medium.store offset bytes part = .ok (reply, next) →
      (next.writable = true ∧ ∀ event ∈ next.writeScript, event.Gentle) ∧
        (∀ count, reply = .ok count → 0 < count) ∧
        ∀ error, reply = .error error → error.kind = .interrupted := by
    intro medium part writable some short gentle call
    obtain ⟨after, store, kept, script⟩ :=
      Medium.store_of_writable writable offset bytes some (by omega)
    cases call.symm.trans store
    refine ⟨⟨kept, script ▸ gentle⟩, ?_, ?_⟩
    · rintro _ ⟨⟩
      exact List.length_pos_iff.mpr some
    · rintro _ ⟨⟩
  change medium.writeAt offset bytes = _ at call
  unfold Medium.writeAt at call
  split at call
  next => exact stored medium bytes writable some (Nat.le_refl _) gentle call
  next count rest script =>
    rw [script] at gentle
    obtain ⟨first, others⟩ := List.forall_mem_cons.mp gentle
    have positive : 0 < count := first
    refine stored { medium with writeScript := rest } (bytes.take count) writable ?_ ?_ others call
    · simpa [some] using Nat.ne_of_gt positive
    · exact List.length_take_le' _ _
  next error rest script =>
    rw [script] at gentle
    obtain ⟨first, others⟩ := List.forall_mem_cons.mp gentle
    cases call
    refine ⟨⟨writable, others⟩, ?_, ?_⟩
    · rintro _ ⟨⟩
    · rintro _ ⟨⟩
      exact first

/-- Behind everything that a store holds, a put makes the rest of the contents. -/
theorem Memory.drop_put {memory : Memory} {offset : Nat} (behind : memory.length ≤ offset)
    (bytes : Bytes) : (memory.put offset bytes).bytes.drop offset = bytes := by
  have read := memory.readAt_put offset bytes
  have length := memory.length_put offset bytes
  rw [Memory.readAt, List.take_of_length_le] at read
  · exact read
  · rw [List.length_drop]
    rw [Memory.length] at length
    omega

/-- Such a store, written on below the offset limit, is a sink that nothing stalls. -/
theorem Cursor.perfect : Sink.Perfect
    (fun (cursor : Cursor σ) room =>
      LawfulStore.Stores cursor.store ∧ cursor.offset + room < offsetLimit)
    (fun first last bytes => last.offset = first.offset + bytes.length ∧
      LawfulStore.contents last.store =
        (LawfulStore.contents first.store).replay (Entry.row first.offset bytes)) where
  still _ := ⟨rfl, rfl⟩
  trans := by
    rintro first second third front back ⟨place, stored⟩ ⟨further_place, further⟩
    rw [place] at further_place further
    exact ⟨by rw [further_place, List.length_append, Nat.add_assoc],
      by rw [further, stored, Entry.row_append, Memory.replay_append]⟩
  answers able _ short := write_answers _ _ (by have := able.2; omega)
  took {cursor next room bytes count} able some short call := by
    have place : next.offset = cursor.offset + count := offset_of_write call
    have bound := Sink.taken_le_length call
    have inner := writeAt_of_write call
    obtain ⟨stores, fits⟩ := able
    obtain ⟨after, _⟩ := stores.writeAt some (by omega) inner
    refine ⟨⟨?_, LawfulStore.contents_writeAt some inner⟩, after, ?_⟩
    · rw [place, List.length_take_of_le bound]
    · omega
  failed {cursor next room bytes error} able some short call := by
    have place : next.offset = cursor.offset := offset_of_write call
    have inner := writeAt_of_write call
    obtain ⟨stores, fits⟩ := able
    obtain ⟨after, _⟩ := stores.writeAt some (by omega) inner
    refine ⟨⟨place, LawfulStore.contents_writeAt_error inner⟩, after, ?_⟩
    rw [place]
    exact fits
  takes able some short call :=
    (able.1.writeAt some (by have := able.2; omega) (writeAt_of_write call)).2.1 _ rfl
  retries able some short call :=
    (able.1.writeAt some (by have := able.2; omega) (writeAt_of_write call)).2.2 _ rfl

variable [Source ρ]

/-- An append to no stream, behind everything that a store holds, stores the image of the bytes that it
takes from its source. -/
theorem Appending.run_of_supplies (appending : Appending σ ρ) {base : Nat} {data rest : Bytes}
    (stores : LawfulStore.Stores appending.store)
    (supplies : Source.Supplies appending.source (data ++ rest))
    (behind : (LawfulStore.contents appending.store).length ≤ base)
    (fits : base + encodedLength data.length < offsetLimit) :
    ∃ last, appending.run base 0 data.length = .ok (.ok (), last) ∧
      (LawfulStore.contents last.store).bytes.drop base = Image.encode data ∧
      Source.Supplies last.source rest := by
  obtain ⟨last, run, ⟨_, stored⟩, after⟩ := Sealing.run_of_supplies Cursor.perfect
    (⟨appending.source, ⟨appending.store, base⟩, appending.scratch⟩ : Sealing ρ (Cursor σ)) supplies
    ⟨stores, fits⟩ (Nat.le_refl _)
  refine ⟨⟨last.sink.store, last.source, last.scratch⟩, ?_, ?_, after⟩
  · have start : Checked.add base 0 = .ok base := Checked.add_eq_ok (by omega)
    have none : encodedSize 0 = .ok 0 := rfl
    rw [Appending.run, none, Checked.ok_bind, start, Checked.ok_bind]
    dsimp only
    rw [if_pos (by rfl), addChunks, run]
    rfl
  · by_cases none : Image.encode data = []
    · rw [stored, none]
      exact List.drop_of_length_le behind
    · rw [stored, Memory.replay_row _ _ none]
      exact Memory.drop_put behind _

end SealedStream
