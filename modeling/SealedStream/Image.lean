import SealedStream.Frame

/-!
# Encoding and decoding whole byte strings

The image of a byte string is the row of sealed chunks of its payload blocks. Decoding cuts an image
into frames, verifies each and joins the payloads.
-/

namespace SealedStream.Image

def encode (data : Bytes) : Bytes :=
  (data.blocks Layout.payloadLength).flatMap Frame.ofPayload

/-- The payload of a frame that verifies. -/
def openFrame (frame : Bytes) : Except Damage Bytes := do
  let _ ← Frame.verify frame
  return Frame.payload frame

/-- The data of an encoded image, or what is wrong with its first bad frame. The room for the data
is computed from the length of the image first. -/
def decode (image : Bytes) : Checked (Except Damage Bytes) := do
  let _ ← Layout.logicalSize image.length
  return ((image.blocks Layout.chunkLength).mapM openFrame).map List.flatten

end SealedStream.Image
