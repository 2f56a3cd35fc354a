import BlsBn254.Keys.Packed
import BlsBn254.Recorded

/-!
# The log

Aggregation and verification report what they do as a list of events, in the
order in which they happen (`Logged`). An event of the trace level says that an
aggregation begins, an event of the debug level why a verification fails. Every
event has a message and named fields, all of them text (`Event.fields`).
-/

namespace BlsBn254

/-- How much of the log an event belongs to. -/
inductive Level
  | debug
  | trace
  deriving DecidableEq

/-- The name of a level. -/
def Level.name : Level → String
  | debug => "DEBUG"
  | trace => "TRACE"

/-- Something that is reported. -/
inductive Event
  /-- As many public keys are being aggregated. -/
  | aggregatingPublicKeys (count : Nat)
  /-- As many signatures are being aggregated. -/
  | aggregatingSignatures (count : Nat)
  /-- A signature does not verify under a key, for the given cause. -/
  | rejectedSignature (cause : Error) (key : PublicKey)
  /-- Bytes encode no public key; those of the index given, if several were. -/
  | invalidPublicKey (cause : Error) (index : Option Nat)
  /-- Bytes encode no signature. -/
  | invalidSignature (cause : Error)
  deriving DecidableEq

namespace Event

/-- The level of an event. -/
def level : Event → Level
  | aggregatingPublicKeys _ | aggregatingSignatures _ => .trace
  | rejectedSignature .. | invalidPublicKey .. | invalidSignature _ => .debug

/-- The message of an event. -/
def message : Event → String
  | aggregatingPublicKeys _ => "aggregating public keys"
  | aggregatingSignatures _ => "aggregating signatures"
  | rejectedSignature .. => "rejected signature"
  | invalidPublicKey .. => "invalid public key"
  | invalidSignature _ => "invalid signature"

/-- The fields of an event. -/
def fields : Event → List (String × String)
  | aggregatingPublicKeys count | aggregatingSignatures count => [("count", toString count)]
  | rejectedSignature cause key => [("err", cause.symbol), ("public_key", key.text)]
  | invalidPublicKey cause none => [("err", cause.symbol)]
  | invalidPublicKey cause (some index) => [("err", cause.symbol), ("index", toString index)]
  | invalidSignature cause => [("err", cause.symbol)]

end Event

/-- A value with what is reported on the way to it. -/
abbrev Logged := Recorded Event

end BlsBn254
