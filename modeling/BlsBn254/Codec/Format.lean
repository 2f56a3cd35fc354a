import BlsBn254.Bytes
import BlsBn254.Error

/-!
# Formats

A *format* writes the values of a type in one and the same number of bytes, and
reads them back from a string of that length, refusing what it would not have
written (`Format`). Bytes of another length are treated in two ways:

* taken *as a whole* (`Format.ofBytes`), they are refused for their length;
* taken *from a stream* (`Format.read`), the first of them are read and the rest
  is left for the next reading. A whole stream (`Format.decode`) may have
  nothing left.

A stream is checked in this order: that enough bytes are left, that they are
those of a value, and last that none remain.
-/

namespace BlsBn254

/-- How the values of a type are written in bytes. -/
structure Format (α : Type) where
  /-- The length of every encoding. -/
  size : Nat
  /-- The name under which a refusal is reported by a stream. -/
  label : String
  /-- The encoding of a value. -/
  encode : α → Bytes
  /-- The value that bytes of the right length encode. -/
  parse : Bytes → Except Error α

/-- The types with a format of their own. -/
class Formatted (α : Type) where
  /-- The format of the type. -/
  format : Format α

export Formatted (format)

/-- What can be wrong with a stream. -/
inductive ReadError
  /-- It ends before the value does. -/
  | endOfBuffer
  /-- The bytes encode no value, of what the label names, for the given reason. -/
  | invalid (label reason : String)
  /-- It goes on after the value. -/
  | extraData (count : Nat)
  deriving DecidableEq

/-- What is wrong with a stream, in words. -/
def ReadError.message : ReadError → String
  | endOfBuffer => "Unexpected End-of-Buffer: Not enough bytes remaining to read data"
  | invalid label reason => "Validation Error: Context(" ++ label ++ "), Message(" ++ reason ++ ")"
  | extraData count =>
    "Extra Data: " ++ toString count ++ " bytes remained in buffer after decoding"

namespace Format

variable {α : Type} (f : Format α)

/-- The value that a byte string as a whole encodes. -/
def ofBytes (b : Bytes) : Except Error α :=
  if b.length = f.size then f.parse b else .error (.invalidLength f.size b.length)

/-- The value at the head of a stream, and the rest of the stream. -/
def read (b : Bytes) : Except ReadError (α × Bytes) :=
  if b.length < f.size then .error .endOfBuffer
  else
    match f.parse (b.take f.size) with
    | .ok a => .ok (a, b.drop f.size)
    | .error cause => .error (.invalid f.label cause.reason)

/-- The value that makes up a stream. -/
def decode (b : Bytes) : Except ReadError α :=
  match f.read b with
  | .ok (a, []) => .ok a
  | .ok (_, rest) => .error (.extraData rest.length)
  | .error e => .error e

/-- A stream that begins with an encoding is read up to its end. -/
theorem read_append {f : Format α} {b : Bytes} (hb : b.length = f.size) (rest : Bytes) {a : α}
    (ha : f.parse b = .ok a) : f.read (b ++ rest) = .ok (a, rest) := by
  rw [read, if_neg (by rw [List.length_append]; omega), ← hb, List.take_left, List.drop_left, ha]

end Format

end BlsBn254
