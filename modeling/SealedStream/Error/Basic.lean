import SealedStream.Error.Kind
import SealedStream.Hex

/-!
# Errors of encoding and decoding

A `StreamError` says which of three sides failed: the byte source, the sink or store, or the request
and the data themselves (a `Fault`). Readers hand out I/O errors only, so a fault travels inside an
`IoError`. `ofIo_toIo_fault` says that it comes out unchanged; errors of a sink come out as errors
of a source, since the side is not kept.
-/

namespace SealedStream

/-- Encoded data that is not what an encoder wrote. -/
inductive Damage where
  | checksumMismatch (stored actual : UInt32)
  | malformedChunk (length : Nat)
deriving DecidableEq

/-- What can be wrong with data or with a request, whatever the devices do. -/
inductive Fault where
  | damage (found : Damage)
  | invalidRange (start stop size : Nat)
  | invalidConfig (reason : String)
deriving DecidableEq

/-- An error of a device, or a fault on its way through an I/O interface. -/
inductive IoError where
  | bare (kind : IoKind)
  | described (kind : IoKind) (message : String)
  | carrying (found : Fault)
deriving DecidableEq

inductive StreamError where
  | source (cause : IoError)
  | sink (cause : IoError)
  | fault (found : Fault)
deriving DecidableEq

def Damage.message : Damage → String
  | .checksumMismatch stored actual =>
    "unmatched checksum: expected 0x" ++ Hex.ofWord stored ++ ", got 0x" ++ Hex.ofWord actual
  | .malformedChunk length => "malformed chunk: " ++ toString length ++ " bytes"

def Fault.message : Fault → String
  | .damage found => found.message
  | .invalidRange start stop size =>
    "invalid range " ++ toString start ++ ".." ++ toString stop ++ " (size " ++ toString size ++ ")"
  | .invalidConfig reason => "invalid config: " ++ reason

namespace IoError

/-- Damage is bad data, anything else wrong with a request is bad input. -/
def kind : IoError → IoKind
  | .bare kind => kind
  | .described kind _ => kind
  | .carrying (.damage _) => .invalidData
  | .carrying _ => .invalidInput

def message : IoError → String
  | .bare kind => kind.text
  | .described _ message => message
  | .carrying found => found.message

end IoError

namespace StreamError

def message : StreamError → String
  | .source cause => "source error: " ++ cause.message
  | .sink cause => "sink error: " ++ cause.message
  | .fault found => found.message

/-- The device error behind a failure of a source, sink or store. -/
def cause? : StreamError → Option IoError
  | .source cause | .sink cause => some cause
  | .fault _ => none

def isSource : StreamError → Bool
  | .source _ => true
  | _ => false

def isSink : StreamError → Bool
  | .sink _ => true
  | _ => false

/-- Whether the encoded data is damaged. -/
def isDamage : StreamError → Bool
  | .fault (.damage _) => true
  | _ => false

/-- The error as an I/O interface reports it. -/
def toIo : StreamError → IoError
  | .source cause | .sink cause => cause
  | .fault found => .carrying found

/-- The error behind one that an I/O interface reported. What carries no fault is put down to the
source. -/
def ofIo : IoError → StreamError
  | .carrying found => .fault found
  | cause => .source cause

@[simp] theorem ofIo_toIo_fault (found : Fault) : ofIo (toIo (.fault found)) = .fault found := rfl

@[simp] theorem toIo_ofIo (error : IoError) : toIo (ofIo error) = error := by
  cases error <;> rfl

end StreamError

end SealedStream
