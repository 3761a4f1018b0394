import SealedStream.Proofs.RangeCopying
import SealedStream.Proofs.RangeReading

/-!
# Two ways to a range

A range of a stored stream can be read or copied. The reader decodes from a chunk on and shows a
window; the copy slices each chunk by itself. `range_eq_slice` says that both give the slice of the
data that decoding everything would give, for every alignment of the two ends and however the
devices split their work.
-/
namespace SealedStream

open Layout

/-- Reading a logical range of a store that ends with the image of some data, and copying it, both
give the slice of the data. A reader's range may reach past the data. -/
theorem range_eq_slice {σ κ : Type} [ReadableStore σ] [Sink κ] (store : σ) (taken : κ → Bytes)
    (scratch : Scratch) (contents data : Bytes) (base : Nat)
    (serves : ReadableStore.Serves store contents)
    (stored : contents.drop base = Image.encode data)
    (fits : base + encodedLength data.length < offsetLimit) :
    (∀ start stop, start ≤ data.length → start ≤ stop →
      ∃ reader, RangeReader.create store base start stop data.length scratch = .ok (.ok reader) ∧
        ∀ rooms : List Nat, (∀ room ∈ rooms, 0 < room) →
          ∃ drained last, Source.drain reader rooms = .ok (drained, last) ∧
            drained.bytes <+: (data.take stop).drop start ∧
            (((data.take stop).drop start).length < rooms.length →
              drained = ⟨(data.take stop).drop start, .ended⟩)) ∧
    (∀ start stop, start ≤ stop → stop ≤ data.length →
      ∀ sink : κ, Sink.Accepts taken sink →
        ∃ last, RangeCopy.run ⟨store, sink, scratch⟩ base start stop = .ok (.ok (), last) ∧
          taken last.sink = taken sink ++ (data.take stop).drop start) := by
  constructor
  · intro start stop inside ordered
    obtain ⟨reader, created, yields⟩ :=
      RangeReader.create_slice scratch serves stored fits inside ordered
    refine ⟨reader, created, ?_⟩
    intro rooms positive
    obtain ⟨drained, last, run, rfl | ⟨front, progress⟩⟩ := yields.drain rooms positive
    · exact ⟨_, last, run, List.prefix_refl _, fun _ => rfl⟩
    · refine ⟨drained, last, run, front, fun enough => ?_⟩
      have short := front.length_le
      omega
  · intro start stop ordered inside sink accepts
    have able : RangeCopy.Able contents taken (⟨store, sink, scratch⟩ : RangeCopy σ κ) :=
      ⟨serves, accepts⟩
    obtain ⟨last, run, _, written⟩ := RangeCopy.run_of_image able stored fits ordered inside
    exact ⟨last, run, written⟩

/-- Two of three stored bytes, read past the end and copied from a medium and to an outlet that split
and interrupt. -/
theorem ranges_of_three_bytes :
    let medium : Medium := ⟨⟨9 :: Image.encode [1, 2, 3]⟩, true,
      [.limit 1, .fail (.bare .interrupted)], [], []⟩
    let outlet := Outlet.fresh [.limit 1, .fail (.bare .interrupted)] []
    (∃ reader, RangeReader.create medium 1 1 9 3 .zero = .ok (.ok reader) ∧
      ∃ last, Source.drain reader [1, 1, 1] = .ok (⟨[2, 3], .ended⟩, last)) ∧
    ∃ last, RangeCopy.run ⟨medium, outlet, .zero⟩ 1 1 3 = .ok (.ok (), last) ∧
      last.sink.taken = [2, 3] := by
  intro medium outlet
  have serves : ReadableStore.Serves medium (9 :: Image.encode [1, 2, 3]) :=
    Medium.serves (by decide)
  obtain ⟨reading, copying⟩ :=
    range_eq_slice medium Outlet.taken .zero _ [1, 2, 3] 1 serves rfl (by decide)
  constructor
  · obtain ⟨reader, created, drains⟩ := reading 1 9 (by decide) (by decide)
    obtain ⟨drained, last, run, _, all⟩ := drains [1, 1, 1] (by decide)
    rw [all (by decide)] at run
    exact ⟨reader, created, last, run⟩
  · exact copying 1 3 (by decide) (by decide) outlet (Outlet.accepts (by decide))

end SealedStream
