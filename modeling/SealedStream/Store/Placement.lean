import SealedStream.Error.Basic
import SealedStream.Layout

/-!
# Placement of an encoded stream in a store

A placement says at which offset of a store an encoded stream starts and how many logical bytes it
holds. It is valid if the end of the stream is still an offset.
-/

namespace SealedStream

structure Placement where
  base : Nat
  logicalSize : Nat
deriving DecidableEq

namespace Placement

/-- The placement of an empty stream at the start of a store. -/
def origin : Placement := ⟨0, 0⟩

/-- The store offset just past the last chunk, if it is one. -/
def encodedEnd? (placement : Placement) : Option Nat :=
  (do Checked.add (← Layout.encodedSize placement.logicalSize) placement.base).toOption

def validate (placement : Placement) : Except StreamError Unit :=
  match placement.encodedEnd? with
  | some _ => .ok ()
  | none => .error (.fault (.invalidConfig "encoded stream end overflows u64"))

/-- A placement that has been checked. -/
def create (base logicalSize : Nat) : Except StreamError Placement := do
  let placement : Placement := ⟨base, logicalSize⟩
  placement.validate
  return placement

/-- The placement of the stream with `count` more bytes in it. -/
def grow (placement : Placement) (count : Nat) : Except StreamError Placement :=
  match Checked.add placement.logicalSize count with
  | .ok total => create placement.base total
  | .error _ => .error (.fault (.invalidConfig "logical size overflows u64"))

end Placement

end SealedStream
