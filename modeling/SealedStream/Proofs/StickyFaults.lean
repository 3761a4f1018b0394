import SealedStream.Proofs.Quiescence

/-!
# What becomes of an error that is reported again

A decoder remembers the damage that it has found itself as it is, and of an error of its source the
kind alone. So the later errors are the same fault as the first one, or device errors of the same
kind, unless the first one was a fault that the source had passed on: then the later ones have its
kind and nothing more (`sticky_faults_repeated`). A decoder behind another one shows that
(`nested_fault_reduced`).
-/
namespace SealedStream

namespace StreamError

/-- Errors that say the same: the same fault, or errors of the same side and kind. -/
def SameFault : StreamError → StreamError → Prop
  | .fault first, .fault second => first = second
  | .source first, .source second => first.kind = second.kind
  | .sink first, .sink second => first.kind = second.kind
  | _, _ => False

@[refl] theorem SameFault.refl (error : StreamError) : SameFault error error := by
  cases error <;> rfl

end StreamError

namespace Source

variable {ρ τ : Type} [Source ρ] [Source τ]

/-- An error reported again has the kind of the first one. It is the same fault, too, unless the
source had passed the first one on. -/
def Repeats (source : ρ) (first later : IoError) : Prop :=
  later.kind = first.kind ∧
    (StreamError.SameFault (.ofIo first) (.ofIo later) ∨
      ∃ found, first = .carrying found ∧ later = .bare first.kind ∧ Reports source first)

theorem Repeats.refl (source : ρ) (error : IoError) : Repeats source error error :=
  ⟨rfl, .inl (StreamError.SameFault.refl _)⟩

/-- What is remembered of an error repeats it. -/
theorem repeats_sticky {source : ρ} {error : DecodeError}
    (reported : ∀ {cause}, error = .source cause →
      Reports source cause.toIo ∨ cause = .unexpectedEof) :
    Repeats source error.toIo (Sticky.ofError error).toIo := by
  refine ⟨Sticky.kind_ofError error, ?_⟩
  cases error with
  | damage found => exact .inl rfl
  | source cause =>
    -- Only a fault on its way through the source is more than a kind.
    rcases reported rfl with passed | rfl
    · obtain ⟨bare | described | found, final⟩ := cause
      · exact .inl rfl
      · exact .inl rfl
      · exact .inr ⟨found, rfl, rfl, passed⟩
    · exact .inl rfl

/-- The errors of a reader that halts repeat its first one. -/
theorem Halts.failures_pairwise {Open : Bytes → τ → Prop} {Ended : Bytes → DecodeError → τ → Prop}
    (halts : Halts Open Ended) {source : ρ}
    (reported : ∀ {delivered error last}, Ended delivered error last →
      ∀ {cause}, error = .source cause → Reports source cause.toIo ∨ cause = .unexpectedEof)
    {reader : τ} (start : Open [] reader) (responds : Responds reader) (rooms : List Nat) :
    ∃ replies last, Source.readEach reader rooms = .ok (replies, last) ∧
      (failures replies).Pairwise (Repeats source) := by
  obtain ⟨Inv, inv, answers⟩ := responds
  obtain ⟨⟨replies, last⟩, run, _⟩ := answers.readEach inv rooms
  refine ⟨replies, last, run, ?_⟩
  rcases halts.readEach start run with ⟨all, _⟩ | ⟨front, error, count, rfl, all, ended⟩
  · rw [failures_of_ok all]
    exact .nil
  · have first := repeats_sticky (reported ended)
    have errors : failures (front ++ .error error.toIo ::
        .replicate count (.error (Sticky.ofError error).toIo)) =
          error.toIo :: .replicate count (Sticky.ofError error).toIo := by
      have none := failures_of_ok all
      unfold failures at none ⊢
      rw [List.filterMap_append, none]
      simp
    rw [errors, List.pairwise_cons]
    refine ⟨?_, List.pairwise_replicate.mpr (.inr (.refl source _))⟩
    intro later member
    rwa [(List.mem_replicate.mp member).2]

end Source

/-- Of the errors that a decoder reports, each repeats those before it: the fault stays the same, as
long as it is not one that the source of the decoder has passed on. -/
theorem sticky_faults_repeated {ρ : Type} [Source ρ] (source : ρ) (scratch : Scratch)
    (rooms : List Nat) (responds : Source.Responds source) :
    (∀ size, ∃ replies last,
      Source.readEach (SizedDecoder.create source size scratch) rooms = .ok (replies, last) ∧
        (Source.failures replies).Pairwise (Source.Repeats source)) ∧
    ∃ replies last,
      Source.readEach (StreamDecoder.create source scratch) rooms = .ok (replies, last) ∧
        (Source.failures replies).Pairwise (Source.Repeats source) := by
  constructor
  · intro size
    exact (SizedDecoder.halts source size).failures_pairwise SizedDecoder.Ended.reported
      (.start source size scratch) (SizedDecoder.responds responds size scratch) rooms
  · exact (StreamDecoder.halts source).failures_pairwise
      (fun ended _ same => .inl (ended.reported same)) (.start source scratch)
      (StreamDecoder.responds responds scratch) rooms

/-- A damaged frame, read twice: both errors are the mismatch. -/
theorem mismatch_repeated :
    let feed : Feed := .ofBytes [0, 0, 0, 0, 9]
    ∃ replies last, Source.readEach (StreamDecoder.create feed .zero) [1, 1] = .ok (replies, last) ∧
      Source.failures replies = .replicate 2 (.carrying (.damage (.checksumMismatch 0 0xabde5729))) ∧
      (Source.failures replies).Pairwise (Source.Repeats feed) := by
  intro feed
  obtain ⟨_, replies, last, run, repeated⟩ :=
    sticky_faults_repeated feed .zero [1, 1] (Source.responds_of_total feed)
  have errors : (Source.readEach (StreamDecoder.create feed .zero) [1, 1]).toOption.map
      (fun result => Source.failures result.1) =
        some (.replicate 2 (.carrying (.damage (.checksumMismatch 0 0xabde5729)))) := by
    decide +kernel
  rw [run] at errors
  exact ⟨replies, last, run, Option.some.inj errors, repeated⟩

/-- The same frame, read by a decoder behind the decoder: the second error is no mismatch any more. -/
theorem nested_fault_reduced :
    let inner : StreamDecoder Feed := .create (.ofBytes [0, 0, 0, 0, 9]) .zero
    ∃ first later, (Source.readEach (SizedDecoder.create inner 1 .zero) [1, 1]).toOption.map
        (fun result => Source.failures result.1) = some [first, later] ∧
      StreamError.ofIo first = .fault (.damage (.checksumMismatch 0 0xabde5729)) ∧
      StreamError.ofIo later = .source (.bare .invalidData) ∧
      ¬ StreamError.SameFault (.ofIo first) (.ofIo later) := by
  intro inner
  exact ⟨.carrying (.damage (.checksumMismatch 0 0xabde5729)), .bare .invalidData,
    by decide +kernel, rfl, rfl, fun same => same⟩

end SealedStream
