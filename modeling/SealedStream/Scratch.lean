import SealedStream.Frame

/-!
# Scratch buffers

A scratch buffer holds one chunk while it is gathered, sealed or verified. It always has the length
of a full chunk; filling and slicing stop when they reach outside it.
-/

namespace SealedStream

structure Scratch where
  bytes : Bytes
  length_eq : bytes.length = Layout.chunkLength
deriving DecidableEq

namespace Scratch

def zero : Scratch :=
  ⟨List.replicate Layout.chunkLength 0, List.length_replicate⟩

/-- A scratch buffer made of given bytes, which must be as many as a full chunk has. -/
def ofBytes (bytes : Bytes) : Checked Scratch :=
  if h : bytes.length = Layout.chunkLength then .ok ⟨bytes, h⟩ else .error .assertion

/-- The buffer with `content` put in from `position` on. -/
def fill (scratch : Scratch) (position : Nat) (content : Bytes) : Checked Scratch :=
  if h : position + content.length ≤ Layout.chunkLength then
    .ok
      { bytes :=
          scratch.bytes.take position ++ content ++
            scratch.bytes.drop (position + content.length)
        length_eq := by
          simp only [List.length_append, List.length_take, List.length_drop, scratch.length_eq]
          omega }
  else .error .outOfBounds

/-- The bytes at positions `start` up to but not including `stop`. -/
def slice (scratch : Scratch) (start stop : Nat) : Checked Bytes :=
  if start ≤ stop ∧ stop ≤ Layout.chunkLength then .ok ((scratch.bytes.take stop).drop start)
  else .error .outOfBounds

/-- Puts the checksum of the `length` payload bytes behind the header into the header, and gives out
the frame. -/
def sealFrame (scratch : Scratch) (length : Nat) : Checked (Bytes × Scratch) := do
  let stop := Layout.headerLength + length
  let payload ← scratch.slice Layout.headerLength stop
  let scratch ← scratch.fill 0 (Checksum.of payload).header
  return (← scratch.slice 0 stop, scratch)

theorem slice_of_bytes {scratch : Scratch} (front middle back : Bytes)
    (view : scratch.bytes = front ++ middle ++ back) :
    scratch.slice front.length (front.length + middle.length) = .ok middle := by
  have length := scratch.length_eq
  rw [view, List.length_append, List.length_append] at length
  rw [slice, if_pos (by omega), view, List.append_assoc, List.take_length_add_append,
    List.take_left, List.drop_left]

/-- Of what a buffer starts with, any part can be read. -/
theorem slice_of_front {scratch : Scratch} {front back : Bytes} {start stop : Nat}
    (view : scratch.bytes = front ++ back) (ordered : start ≤ stop) (inside : stop ≤ front.length) :
    scratch.slice start stop = .ok ((front.take stop).drop start) := by
  have length := scratch.length_eq
  rw [view, List.length_append] at length
  rw [slice, if_pos (by omega), view, List.take_append_of_le_length inside]

/-- What a buffer starts with can be read as a whole. -/
theorem slice_front {scratch : Scratch} {front back : Bytes} (view : scratch.bytes = front ++ back) :
    scratch.slice 0 front.length = .ok front := by
  have cut := slice_of_front view (Nat.zero_le _) (Nat.le_refl _)
  rwa [List.take_length, List.drop_zero] at cut

theorem fill_of_bytes {scratch : Scratch} (front old back content : Bytes)
    (view : scratch.bytes = front ++ old ++ back) (same : content.length = old.length) :
    ∃ filled, scratch.fill front.length content = .ok filled ∧
      filled.bytes = front ++ content ++ back := by
  have length := scratch.length_eq
  rw [view, List.length_append, List.length_append] at length
  rw [fill, dif_pos (by omega)]
  refine ⟨_, rfl, ?_⟩
  dsimp only
  rw [view, same, List.append_assoc front old, List.take_left, ← List.drop_drop, List.drop_left,
    List.drop_left]

/-- Whatever ends within a chunk can be filled in behind what a buffer starts with. -/
theorem fill_behind {scratch : Scratch} (front rest content : Bytes)
    (view : scratch.bytes = front ++ rest)
    (fits : front.length + content.length ≤ Layout.chunkLength) :
    ∃ filled back, scratch.fill front.length content = .ok filled ∧
      filled.bytes = front ++ content ++ back := by
  have length := scratch.length_eq
  rw [view, List.length_append] at length
  have split : scratch.bytes =
      front ++ rest.take content.length ++ rest.drop content.length := by
    rw [List.append_assoc, List.take_append_drop, view]
  have same : content.length = (rest.take content.length).length := by
    rw [List.length_take]
    omega
  exact (fill_of_bytes front _ _ content split same).imp fun _ filled => ⟨_, filled⟩

/-- Whatever fits a chunk fills a buffer from its start. -/
theorem fill_start (scratch : Scratch) (content : Bytes)
    (fits : content.length ≤ Layout.chunkLength) :
    ∃ filled back, scratch.fill 0 content = .ok filled ∧ filled.bytes = content ++ back :=
  fill_behind [] scratch.bytes content rfl (by simpa using fits)

/-- A payload that fits a chunk can be filled in behind the room for its header. -/
theorem fill_payload (scratch : Scratch) (payload : Bytes)
    (small : payload.length ≤ Layout.payloadLength) :
    ∃ filled front back, scratch.fill Layout.headerLength payload = .ok filled ∧
      filled.bytes = front ++ payload ++ back ∧ front.length = Layout.headerLength := by
  have front : (scratch.bytes.take Layout.headerLength).length = Layout.headerLength := by
    rw [List.length_take, scratch.length_eq]
    rfl
  obtain ⟨filled, back, filling, view⟩ := fill_behind (scratch.bytes.take Layout.headerLength)
    (scratch.bytes.drop Layout.headerLength) payload (List.take_append_drop _ _).symm
    (by rw [front, ← Layout.headerLength_add_payloadLength]; omega)
  rw [front] at filling
  exact ⟨filled, _, back, filling, view, front⟩

/-- Putting the header in front of the payload that a buffer holds makes it the payload's frame. -/
theorem fill_header {scratch : Scratch} {front payload back : Bytes}
    (header : front.length = Layout.headerLength) (view : scratch.bytes = front ++ payload ++ back) :
    ∃ filled, scratch.fill 0 (Checksum.of payload).header = .ok filled ∧
      filled.bytes = Frame.ofPayload payload ++ back := by
  have split : scratch.bytes = [] ++ front ++ (payload ++ back) := by
    rw [view, List.nil_append, List.append_assoc]
  obtain ⟨filled, filling, bytes⟩ := fill_of_bytes [] front (payload ++ back)
    (Checksum.of payload).header split header.symm
  refine ⟨filled, filling, ?_⟩
  rw [bytes, List.nil_append, Frame.ofPayload, List.append_assoc]

/-- Sealing a buffer that holds a payload behind its header gives the payload's frame. -/
theorem sealFrame_of_bytes {scratch : Scratch} {front payload back : Bytes}
    (header : front.length = Layout.headerLength) (view : scratch.bytes = front ++ payload ++ back) :
    ∃ filled, scratch.sealFrame payload.length = .ok (Frame.ofPayload payload, filled) := by
  -- The payload is read behind the header, and the header then put in front of it.
  have cut := slice_of_bytes front payload back view
  rw [header] at cut
  obtain ⟨filled, filling, sealed⟩ := fill_header header view
  have frame := slice_front sealed
  rw [Frame.length_ofPayload] at frame
  refine ⟨filled, ?_⟩
  rw [sealFrame, cut, Checked.ok_bind, filling, Checked.ok_bind, frame]
  rfl

/-- A line that shows the buffer's size and not its contents. -/
def describe (scratch : Scratch) : String :=
  "ChunkBuffer \x7b len: " ++ toString scratch.bytes.length ++ " \x7d"

end Scratch

end SealedStream
