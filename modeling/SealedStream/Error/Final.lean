import SealedStream.Error.Basic

/-!
# Final errors

Loops over a device make an interrupted call again, so no error that they report is an interruption.
`FinalError` keeps that fact with the error. A reader that has failed remembers a `Sticky` failure:
of a device error the kind alone, of damage everything.
-/

namespace SealedStream

/-- An error that is not an interruption. -/
def FinalError : Type := { error : IoError // error.kind ≠ .interrupted }

namespace FinalError

def toIo (error : FinalError) : IoError := error.val

def unexpectedEof : FinalError := ⟨.bare .unexpectedEof, by decide⟩

def writeZero : FinalError := ⟨.bare .writeZero, by decide⟩

/-- The data ended before a buffer of fixed size was full. -/
def unfilledBuffer : FinalError :=
  ⟨.described .unexpectedEof "failed to fill whole buffer", by decide⟩

/-- A sink took nothing of what was left of a buffer. -/
def unwrittenBuffer : FinalError :=
  ⟨.described .writeZero "failed to write whole buffer", by decide⟩

theorem kind_ne (error : FinalError) : error.toIo.kind ≠ .interrupted := error.property

end FinalError

/-- Why a decoder could not produce its next chunk. -/
inductive DecodeError where
  | source (cause : FinalError)
  | damage (found : Damage)

namespace DecodeError

def toStreamError : DecodeError → StreamError
  | .source cause => .source cause.toIo
  | .damage found => .fault (.damage found)

def toIo (error : DecodeError) : IoError := error.toStreamError.toIo

theorem kind_ne (error : DecodeError) : error.toIo.kind ≠ .interrupted := by
  cases error with
  | source cause => exact cause.kind_ne
  | damage found => intro h; cases h

end DecodeError

/-- What a decoder remembers of the error that ended it. -/
inductive Sticky where
  | device (kind : IoKind) (final : kind ≠ .interrupted)
  | damage (found : Damage)
deriving DecidableEq

namespace Sticky

def ofError : DecodeError → Sticky
  | .source cause => .device cause.toIo.kind cause.kind_ne
  | .damage found => .damage found

def toIo : Sticky → IoError
  | .device kind _ => .bare kind
  | .damage found => .carrying (.damage found)

theorem kind_ne (sticky : Sticky) : sticky.toIo.kind ≠ .interrupted := by
  cases sticky with
  | device kind final => exact final
  | damage found => intro h; cases h

/-- A later error has the kind of the first. -/
theorem kind_ofError (error : DecodeError) : (ofError error).toIo.kind = error.toIo.kind := by
  cases error <;> rfl

end Sticky

end SealedStream
