import SealedStream.Proofs.ChunkWriting
import SealedStream.Proofs.StoreEncoding

/-!
# All encoders write the same image

Bytes can be encoded at once, from a source into a sink, by reading, by writing, and into a store.
`encoders_agree` says that all five ways give the same image, however the devices split their work and
however often they interrupt it, and that the image has the encoded size of the data.
-/
namespace SealedStream

open Layout TracedSink

/-- What is encoded from a source into a sink, read from a stream encoder, written through a chunk
writer or appended behind all that a store holds is the image of the data. Encoders that are told how
much to encode leave the rest to the source. Finishing a chunk writer replies as the sink does to its
flush. -/
theorem encoders_agree {ρ κ σ : Type} [Source ρ] [TracedSink κ] [LawfulStore σ]
    (data rest : Bytes) (scratch : Scratch) :
    encodedSize data.length =
      (if (Image.encode data).length < offsetLimit then .ok (Image.encode data).length
        else .error .overflow) ∧
    (∀ (source : ρ) (sink : κ), Source.Supplies source (data ++ rest) → Sink.Accepts taken sink →
      ∃ last, Sealing.run ⟨source, sink, scratch⟩ data.length = .ok (.ok (), last) ∧
        taken last.sink = taken sink ++ Image.encode data ∧ Source.Supplies last.source rest) ∧
    (∀ source : ρ, Source.Supplies source data →
      ∀ rooms : List Nat, (∀ room ∈ rooms, 0 < room) →
        ∃ drained last, Source.drain (StreamEncoder.create source scratch) rooms =
            .ok (drained, last) ∧
          drained.bytes <+: Image.encode data ∧
          ((Image.encode data).length < rooms.length → drained = ⟨Image.encode data, .ended⟩)) ∧
    (∀ (sink : κ) (pieces : List Bytes), Sink.Accepts taken sink → pieces.flatten = data →
      ∃ writer, (ChunkWriter.create sink scratch).serve (pieces.map .write) =
          .ok (pieces.map fun piece => .write piece (.ok piece.length), writer) ∧
        ∃ filled last, taken filled = taken sink ++ Image.encode data ∧
          writer.finish = .ok ((Sink.flush filled).1, last) ∧
          last.sink = (Sink.flush filled).2 ∧ taken last.sink = taken filled) ∧
    (∀ (store : σ) (source : ρ) (base : Nat), LawfulStore.Stores store →
      Source.Supplies source (data ++ rest) → (LawfulStore.contents store).length ≤ base →
      base + encodedLength data.length < offsetLimit →
        ∃ last, Appending.run ⟨store, source, scratch⟩ base 0 data.length = .ok (.ok (), last) ∧
          (LawfulStore.contents last.store).bytes.drop base = Image.encode data ∧
          Source.Supplies last.source rest) := by
  refine ⟨?size, ?encode, ?read, ?write, ?append⟩
  case size =>
    rw [Image.length_encode]
    rfl
  case encode =>
    intro source sink supplies accepts
    exact Sealing.run_of_supplies Sink.Accepts.perfect ⟨source, sink, scratch⟩ supplies accepts
      (Nat.le_refl _)
  case read =>
    intro source supplies rooms positive
    exact (StreamEncoder.yields scratch supplies).drain_front rooms positive
  case write =>
    rintro sink pieces accepts rfl
    obtain ⟨writer, run, keeps, perfect⟩ :=
      (ChunkWriter.Open.create sink scratch).keeps.serve_writes accepts pieces
    rw [List.nil_append] at keeps
    obtain ⟨reply, last, finishing, _, _, all⟩ := keeps.finish
    obtain ⟨filled, whole, rfl, same⟩ := all perfect
    exact ⟨writer, run, filled, last, whole, finishing, same, same ▸ taken_flush filled⟩
  case append =>
    intro store source base stores supplies behind fits
    exact Appending.run_of_supplies ⟨store, source, scratch⟩ stores supplies behind fits

/-- Three of four bytes through devices that split and interrupt. -/
theorem three_bytes_encoded_alike :
    let feed (bytes : Bytes) : Feed := ⟨bytes, [.limit 2, .fail (.bare .interrupted)]⟩
    let outlet := Outlet.fresh [.limit 1, .fail (.bare .interrupted)] []
    let medium : Medium := ⟨⟨[]⟩, true, [], [.limit 5, .fail (.bare .interrupted)], []⟩
    (∃ last, Sealing.run ⟨feed [1, 2, 3, 4], outlet, .zero⟩ 3 = .ok (.ok (), last) ∧
      last.sink.taken = Image.encode [1, 2, 3] ∧ Source.Supplies last.source [4]) ∧
    (∃ last, Source.drain (StreamEncoder.create (feed [1, 2, 3]) .zero) (.replicate 8 1) =
      .ok (⟨Image.encode [1, 2, 3], .ended⟩, last)) ∧
    (∃ writer, (ChunkWriter.create outlet .zero).serve [.write [1], .write [], .write [2, 3]] =
        .ok ([.write [1] (.ok 1), .write [] (.ok 0), .write [2, 3] (.ok 2)], writer) ∧
      ∃ reply last, writer.finish = .ok (reply, last) ∧ last.sink.taken = Image.encode [1, 2, 3]) ∧
    (∃ last, Appending.run ⟨medium, feed [1, 2, 3, 4], .zero⟩ 9 0 3 = .ok (.ok (), last) ∧
      last.store.contents.bytes.drop 9 = Image.encode [1, 2, 3] ∧
      Source.Supplies last.source [4]) := by
  intro feed outlet medium
  have supplies : ∀ bytes, Source.Supplies (feed bytes) bytes := by
    intro bytes
    have gentle : ∀ event ∈ (feed []).script, event.Gentle := by decide
    exact @Feed.supplies (feed bytes) gentle
  have accepts : Sink.Accepts taken outlet := Outlet.accepts (by decide)
  obtain ⟨_, encode, read, write, append⟩ :=
    encoders_agree (ρ := Feed) (κ := Outlet) (σ := Medium) [1, 2, 3] [4] .zero
  refine ⟨encode (feed [1, 2, 3, 4]) outlet (supplies _) accepts, ?_, ?_, ?_⟩
  · obtain ⟨drained, last, run, _, all⟩ :=
      read (feed [1, 2, 3]) (supplies _) (.replicate 8 1) (by decide)
    rw [all (by rw [Image.length_encode]; decide)] at run
    exact ⟨last, run⟩
  · obtain ⟨writer, run, filled, last, whole, finishing, _, same⟩ :=
      write outlet [[1], [], [2, 3]] accepts rfl
    exact ⟨writer, run, _, last, finishing, same.trans whole⟩
  · exact append medium (feed [1, 2, 3, 4]) 9 (Medium.stores rfl (by decide)) (supplies _) (by decide)
      (by decide)

end SealedStream
