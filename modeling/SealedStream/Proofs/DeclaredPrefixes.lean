import SealedStream.Proofs.SizedDecoding

/-!
# Decoding with a size below that of the data

A decoder may be told a size that is smaller than the data it finds. The frame in which the declared
size ends is then read with more room than is needed, and all that comes of its payload enters the
checksum. How much comes is up to the source. If it is the whole payload, the declared bytes are
handed out; a source that gives what there is room for, or a size that ends with a chunk, makes sure
of that. If it is less, the frame is taken for a damaged one unless the checksum of the part happens
to be that of the whole (`declared_prefix`).
-/
namespace SealedStream

open Layout

namespace Source

variable {ρ : Type} [Source ρ]

/-- A source that has `bytes` to give, and at each read as many of them as there is room for. It may
also be interrupted. -/
def SuppliesAtOnce (source : ρ) (bytes : Bytes) : Prop :=
  ∃ Inv : ρ → Bytes → Prop, Inv source bytes ∧ ∀ source bytes, Inv source bytes → ∀ room,
    (∃ next, read source room = .ok (.ok (bytes.take room), next) ∧ Inv next (bytes.drop room)) ∨
    (∃ error next, read source room = .ok (.error error, next) ∧ error.kind = .interrupted ∧
      Inv next bytes)

theorem SuppliesAtOnce.of_read {source next : ρ} {bytes part : Bytes} {room : Nat}
    (supplies : SuppliesAtOnce source bytes) (call : read source room = .ok (.ok part, next)) :
    part = bytes.take room ∧ SuppliesAtOnce next (bytes.drop room) := by
  obtain ⟨Inv, start, keeps⟩ := supplies
  rcases keeps source bytes start room with ⟨_, read, after⟩ | ⟨_, _, read, _⟩ <;>
    cases call.symm.trans read
  exact ⟨rfl, Inv, after, keeps⟩

theorem SuppliesAtOnce.of_read_error {source next : ρ} {bytes : Bytes} {room : Nat}
    {error : IoError} (supplies : SuppliesAtOnce source bytes)
    (call : read source room = .ok (.error error, next)) :
    error.kind = .interrupted ∧ SuppliesAtOnce next bytes := by
  obtain ⟨Inv, start, keeps⟩ := supplies
  rcases keeps source bytes start room with ⟨_, read, _⟩ | ⟨_, _, read, kind, after⟩ <;>
    cases call.symm.trans read
  exact ⟨kind, Inv, after, keeps⟩

/-- Gathering from such a source takes all there is room for, even if less is needed. -/
theorem SuppliesAtOnce.gather {source last : ρ} {bytes : Bytes} {need room : Nat}
    {gathered : Gathered} (supplies : SuppliesAtOnce source bytes) (positive : 0 < need)
    (le : need ≤ room) (run : Source.gather source need room = .ok (gathered, last)) :
    gathered.bytes = bytes.take room ∧ SuppliesAtOnce last (bytes.drop room) := by
  fun_induction Source.gather source need room generalizing bytes gathered last with
  | case1 => omega
  | case2 => cases run
  | case3 source need room _ next call =>
    cases run
    exact supplies.of_read call
  | case4 => cases run
  | case5 source need room _ part next call some rest middle inner ih =>
    cases run
    obtain ⟨rfl, after⟩ := supplies.of_read call
    by_cases enough : need ≤ (bytes.take room).length
    · -- One read has brought enough, and everything there was room for.
      rw [Source.gather, if_pos (Nat.sub_eq_zero_of_le enough)] at inner
      cases inner
      exact ⟨List.append_nil _, after⟩
    · -- The read has brought all that is left, and the next one will bring nothing.
      have length := List.length_take (i := room) (l := bytes)
      have whole : bytes.drop room = [] := List.drop_of_length_le (by omega)
      rw [whole] at after ⊢
      obtain ⟨none, final⟩ := ih after (by omega) (by omega) inner
      rw [List.take_nil] at none
      rw [List.drop_nil] at final
      exact ⟨by rw [none, List.append_nil], final⟩
  | case6 source need room _ error next call _ ih =>
    exact ih (supplies.of_read_error call).2 positive le run
  | case7 source need room _ error next call final =>
    exact absurd (supplies.of_read_error call).1 final

end Source

/-- A feed without a script gives all that is asked for. -/
theorem Feed.suppliesAtOnce (bytes : Bytes) : Source.SuppliesAtOnce (Feed.ofBytes bytes) bytes :=
  ⟨fun feed bytes => feed = Feed.ofBytes bytes, rfl, by
    rintro _ bytes rfl room
    exact .inl ⟨_, rfl, rfl⟩⟩

namespace SizedDecoder

/-- The payload of the chunk in which the first `size` bytes of some data end. -/
def endPayload (data : Bytes) (size : Nat) : Bytes :=
  (data.drop (payloadLength * chunkIndex size)).take payloadLength

theorem chunkIndex_behind (size : Nat) : chunkIndex (payloadLength + size) = chunkIndex size + 1 := by
  simp only [chunkIndex, payloadLength]
  omega

theorem offsetInChunk_behind (size : Nat) :
    offsetInChunk (payloadLength + size) = offsetInChunk size :=
  Nat.add_mod_left _ _

theorem endPayload_behind {front : Bytes} (full : front.length = payloadLength) (rest : Bytes)
    (size : Nat) : endPayload (front ++ rest) (payloadLength + size) = endPayload rest size := by
  rw [endPayload, endPayload, chunkIndex_behind, Nat.mul_succ, Nat.add_comm, ← List.drop_drop,
    ← full, List.drop_left]

/-- A front part of an image that has at least a header, and at most a chunk, is the header of the
first payload and some of that payload: all of it if the part is as long as it may be. -/
theorem part_of_image {data part rest : Bytes} {size : Nat} (inside : size < data.length)
    (short : size < payloadLength) (split : Image.encode data = part ++ rest)
    (fits : part.length ≤ chunkLength) (ended : part.length < headerLength + size → rest = []) :
    ∃ count, size ≤ count ∧ count ≤ (data.take payloadLength).length ∧
      part = (Checksum.of (data.take payloadLength)).header ++ (data.take payloadLength).take count ∧
      (part = (Image.encode data).take chunkLength → count = (data.take payloadLength).length) := by
  have some : data ≠ [] := List.length_pos_iff.mp (by omega)
  have image := Image.encode_of_ne_nil some
  have behind : (data.take payloadLength).length = payloadLength ∨
      Image.encode (data.drop payloadLength) = [] := by
    rcases Nat.le_total payloadLength data.length with full | small
    · exact .inl (List.length_take_of_le full)
    · exact .inr (by rw [List.drop_of_length_le small, Image.encode_nil])
  have held : size < (data.take payloadLength).length := by
    rw [List.length_take]
    omega
  have small : (data.take payloadLength).length ≤ payloadLength := List.length_take_le _ _
  -- Only the first payload and what lies behind its frame matter from here on.
  generalize Image.encode (data.drop payloadLength) = others at *
  generalize data.take payloadLength = payload at *
  have frame := Frame.length_ofPayload payload
  have whole := congrArg List.length split
  rw [image, List.length_append, List.length_append, frame] at whole
  rw [← headerLength_add_payloadLength] at fits ⊢
  have enough : headerLength + size ≤ part.length := by
    apply Nat.le_of_not_lt
    intro less
    have none := congrArg List.length (ended less)
    rw [List.length_nil] at none
    omega
  -- A full frame takes all the room, and behind a shorter one nothing comes.
  have inner : part.length ≤ (Frame.ofPayload payload).length := by
    rcases behind with full | none
    · omega
    · rw [none, List.length_nil] at whole
      omega
  have front : part <+: Frame.ofPayload payload :=
    List.prefix_of_prefix_length_le ⟨rest, by rw [← split, image]⟩ (List.prefix_append _ _) inner
  refine ⟨part.length - headerLength, by omega, by omega, ?_, ?_⟩
  · have view := List.prefix_iff_eq_take.mp front
    rw [Frame.ofPayload, List.take_append, List.take_of_length_le
      (by rw [Checksum.length_header]; omega)] at view
    exact view
  · intro all
    have length := congrArg List.length all
    rw [List.length_take, image, List.length_append, frame] at length
    omega

variable {ρ : Type} [Source ρ]

/-- What comes of a declared size if the last fetch takes `count` bytes of the payload in which it
ends. -/
structure Declared (source : ρ) (data : Bytes) (size count : Nat) : Prop where
  enough : offsetInChunk size ≤ count
  within : count ≤ (endPayload data size).length
  whole : offsetInChunk size = 0 ∨ Source.SuppliesAtOnce source (Image.encode data) →
    count = (endPayload data size).length
  intact : Checksum.of (endPayload data size) = Checksum.of ((endPayload data size).take count) →
    Fetches source size (data.take size) none
  spoiled : Checksum.of (endPayload data size) ≠ Checksum.of ((endPayload data size).take count) →
    Fetches source size (data.take (payloadLength * chunkIndex size))
      (some (DecodeError.damage (.checksumMismatch (Checksum.of (endPayload data size)).value
        (Checksum.of ((endPayload data size).take count)).value)).toFinal)

namespace Declared

variable {source : ρ} {data : Bytes}

/-- With nothing declared nothing is read. -/
theorem nothing (source : ρ) (data : Bytes) :
    Declared source data 0 (endPayload data 0).length where
  enough := Nat.zero_le _
  within := Nat.le_refl _
  whole _ := rfl
  intact _ := by
    rw [List.take_zero]
    exact .done source
  spoiled differ := absurd (by rw [List.take_length]) differ

/-- A size that ends within the first chunk is fetched at once. -/
theorem first {size : Nat} (supplies : Source.Supplies source (Image.encode data))
    (positive : size ≠ 0) (short : size < payloadLength) (inside : size < data.length) :
    ∃ count, Declared source data size count := by
  obtain ⟨part, rest, next, gathering, split, ended, after⟩ :=
    supplies.gather (min (size + headerLength) chunkLength) chunkLength (Nat.min_le_right _ _)
  have index : chunkIndex size = 0 := Nat.div_eq_of_lt short
  have old : offsetInChunk size = size := Nat.mod_eq_of_lt short
  have same : endPayload data size = data.take payloadLength := by
    rw [endPayload, index, Nat.mul_zero, List.drop_zero]
  have need : min (size + headerLength) chunkLength = headerLength + size := by
    rw [Nat.add_comm, ← headerLength_add_payloadLength]
    exact Nat.min_eq_left (Nat.add_le_add_left (Nat.le_of_lt short) _)
  rw [need] at gathering ended
  obtain ⟨count, enough, within, rfl, all⟩ :=
    part_of_image inside short split (Source.length_gather_le gathering) ended
  have length : ((endPayload data size).take count).length = count := by
    rw [List.length_take, same, Nat.min_eq_left within]
  have some : (endPayload data size).take count ≠ [] := List.length_pos_iff.mp (by omega)
  rw [← same] at within split gathering all
  have opened := Gathered.opened_header_append (Checksum.of (endPayload data size)) some
    (show headerLength + size ≤ _ by omega)
  refine ⟨count, ⟨by omega, within, ?_, ?_, ?_⟩⟩
  · -- Within the first chunk, a size that ends with a chunk is no size at all.
    rintro (aligned | atOnce)
    · omega
    · exact all (atOnce.gather (by omega) (need ▸ Nat.min_le_right _ _) gathering).1
  · intro intact
    rw [if_pos intact] at opened
    have rest_done : Fetches next (size - ((endPayload data size).take count).length) [] .none := by
      rw [length, Nat.sub_eq_zero_of_le (by omega)]
      exact .done next
    have loaded := Fetches.loaded positive need gathering opened rest_done
    rw [List.take_take, Nat.min_eq_left (by omega), same, List.take_take, Nat.min_eq_left (by omega),
      List.append_nil] at loaded
    exact loaded
  · intro spoiled
    rw [if_neg spoiled] at opened
    rw [index, Nat.mul_zero, List.take_zero]
    exact .stopped positive need gathering opened

/-- A full chunk in front of what is declared is fetched as a whole. -/
theorem behind {front rest : Bytes} {size : Nat} (full : front.length = payloadLength)
    (supplies : Source.Supplies source (Image.encode (front ++ rest))) :
    ∃ next : ρ, Source.Supplies next (Image.encode rest) ∧
      ∀ count, Declared next rest size count →
        Declared source (front ++ rest) (payloadLength + size) count := by
  have some : front ≠ [] := List.length_pos_iff.mp (by rw [full]; decide)
  have limited : min (payloadLength + size + headerLength) chunkLength = chunkLength := by
    rw [← headerLength_add_payloadLength]
    omega
  have frame : (Frame.ofPayload front).length = chunkLength := by
    rw [Frame.length_ofPayload, full, headerLength_add_payloadLength]
  have image : Image.encode (front ++ rest) = Frame.ofPayload front ++ Image.encode rest :=
    Image.encode_append_block some (Nat.le_of_eq full) (.inl full)
  have taken : ∀ more, (front ++ rest).take (payloadLength + more) = front ++ rest.take more := by
    intro more
    rw [← full, List.take_length_add_append]
  -- As much is needed as there is room for, so just the first frame is gathered.
  obtain ⟨next, gathering, after⟩ := supplies.readFull chunkLength
  rw [Source.readFull, image, List.take_left' frame] at gathering
  rw [image, List.drop_left' frame] at after
  have opened : Gathered.opened ⟨Frame.ofPayload front, none⟩ chunkLength = .ok front := by
    rw [Frame.ofPayload, Gathered.opened_header_append _ some
      (Nat.le_of_eq (by rw [full, headerLength_add_payloadLength])), if_pos rfl]
  -- Whatever comes of the rest comes behind the first chunk.
  have loads : ∀ {bytes : Bytes} {failure : Option FinalError}, Fetches next size bytes failure →
      Fetches source (payloadLength + size) (front ++ bytes) failure := by
    intro bytes failure behind
    have wanting : payloadLength + size ≠ 0 := by
      simp only [payloadLength]
      omega
    have left : payloadLength + size - front.length = size := by omega
    have loaded := Fetches.loaded wanting limited gathering opened (left.symm ▸ behind)
    rwa [List.take_of_length_le (by omega)] at loaded
  refine ⟨next, after, fun count declared => ⟨?_, ?_, ?_, ?_, ?_⟩⟩
  · rw [offsetInChunk_behind]
    exact declared.enough
  · rw [endPayload_behind full]
    exact declared.within
  · rw [endPayload_behind full, offsetInChunk_behind]
    refine fun whole => declared.whole (whole.imp_right fun atOnce => ?_)
    have behind := (atOnce.gather (by decide) (Nat.le_refl _) gathering).2
    rwa [image, List.drop_left' frame] at behind
  · rw [endPayload_behind full, taken]
    exact fun intact => loads (declared.intact intact)
  · rw [endPayload_behind full, chunkIndex_behind, Nat.mul_succ, Nat.add_comm _ payloadLength, taken]
    exact fun spoiled => loads (declared.spoiled spoiled)

end Declared

/-- For every declared size within the data there is a part of the last payload that is taken. -/
theorem exists_declared {source : ρ} {data : Bytes} {size : Nat}
    (supplies : Source.Supplies source (Image.encode data)) (inside : size < data.length) :
    ∃ count, Declared source data size count := by
  -- The induction is on the declared size, of which each full chunk takes its part.
  induction size using Nat.strongRecOn generalizing source data with
  | _ size ih =>
    by_cases positive : size = 0
    · subst positive
      exact ⟨_, .nothing source data⟩
    by_cases short : size < payloadLength
    · exact Declared.first supplies positive short inside
    · -- The data are as long as a full chunk, which is fetched first.
      have full := List.length_take_of_le (Nat.le_trans (Nat.le_of_not_lt short) (Nat.le_of_lt inside))
      have behind : payloadLength + (size - payloadLength) = size :=
        Nat.add_sub_cancel' (Nat.le_of_not_lt short)
      rw [← List.take_append_drop payloadLength data] at supplies
      obtain ⟨next, after, front⟩ := Declared.behind full supplies
      obtain ⟨count, declared⟩ := ih (size - payloadLength)
        (Nat.sub_lt (Nat.pos_of_ne_zero positive) (by decide)) after
        (by rw [List.length_drop]; omega)
      have whole := front count declared
      rw [behind, List.take_append_drop] at whole
      exact ⟨count, whole⟩

/-- A decoder of a size below that of the data yields all whole chunks within that size. It yields
the rest of the size, too, if what its source has given of the last payload has the checksum of the
whole, and else it fails with a mismatch. The whole payload is given if the size ends with a chunk,
or if the source gives what there is room for. -/
theorem declared_prefix {source : ρ} {data : Bytes} {size : Nat} (scratch : Scratch)
    (supplies : Source.Supplies source (Image.encode data)) (inside : size < data.length) :
    ∃ count, offsetInChunk size ≤ count ∧ count ≤ (endPayload data size).length ∧
      (offsetInChunk size = 0 ∨ Source.SuppliesAtOnce source (Image.encode data) →
        count = (endPayload data size).length) ∧
      (Checksum.of (endPayload data size) = Checksum.of ((endPayload data size).take count) →
        Source.Yields (create source size scratch) (data.take size) none) ∧
      (Checksum.of (endPayload data size) ≠ Checksum.of ((endPayload data size).take count) →
        Source.Yields (create source size scratch) (data.take (payloadLength * chunkIndex size))
          (some (DecodeError.damage (.checksumMismatch
            (Checksum.of (endPayload data size)).value
            (Checksum.of ((endPayload data size).take count)).value)).toFinal)) := by
  obtain ⟨count, declared⟩ := exists_declared supplies inside
  exact ⟨count, declared.enough, declared.within, declared.whole,
    fun intact => (declared.intact intact).yields scratch,
    fun spoiled => (declared.spoiled spoiled).yields scratch⟩

/-- The first of two bytes, from a feed that gives all it is asked for. -/
theorem first_of_two_bytes :
    ∃ last, Source.drain (create (Feed.ofBytes (Image.encode [1, 2])) 1 .zero) [1, 1] =
      .ok (⟨[1], .ended⟩, last) := by
  have supplies : Source.Supplies (Feed.ofBytes (Image.encode [1, 2])) (Image.encode [1, 2]) :=
    Feed.supplies (by decide)
  obtain ⟨count, _, _, whole, intact, _⟩ := declared_prefix .zero supplies (by decide : 1 < 2)
  have all := whole (.inr (Feed.suppliesAtOnce _))
  have yields := intact (by rw [all, List.take_length])
  exact yields.drain_all (by decide) (by decide)

/-- The same bytes from a feed that first gives the five that are needed: the checksum of both bytes
is not that of the first. -/
theorem first_of_two_bytes_rejected :
    let feed : Feed := ⟨Image.encode [1, 2], [.limit 5]⟩
    Source.Supplies feed (Image.encode [1, 2]) ∧
    (Source.drain (create feed 1 .zero) [1, 1]).toOption.map Prod.fst =
      some ⟨[], .failed (.carrying (.damage (.checksumMismatch 0xb6cc4292 0xa505df1b)))⟩ := by
  intro feed
  exact ⟨Feed.supplies (by decide), by decide +kernel⟩

end SizedDecoder

end SealedStream
