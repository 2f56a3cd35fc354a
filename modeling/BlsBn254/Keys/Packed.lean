import BlsBn254.Codec.Elements

/-!
# Packed elements

A packed element is kept together with its encoding, so that it is encoded once
and then written, compared and shown as often as needed. Private keys, public
keys and signatures are packed scalars, points of `G2` and points of `G1`.

The two parts are not tied to each other by the type. Packing an element
(`Packed.of`) encodes it; reading from a stream keeps the bytes read, which are
the encoding because no format reads anything else. The order and the hash of
packed elements are those of their encodings, while equality compares both
parts.

What is public is shown as the hexadecimal text of its encoding, the points with
the name of their group where they are described. What is secret is never shown:
a scalar may be a private key.
-/

namespace BlsBn254

/-- An element and its encoding. -/
structure Packed (E : Type) where
  /-- The encoding. -/
  raw : Bytes
  /-- The element. -/
  element : E
  deriving DecidableEq

/-- A private key. -/
abbrev PrivateKey := Packed Scalar

/-- A public key. -/
abbrev PublicKey := Packed G2

/-- A signature. -/
abbrev Signature := Packed G1

namespace Packed

variable {E : Type}

/-! ## Order -/

instance : Ord (Packed E) := ⟨fun k l => compare k.raw l.raw⟩

/-- The packed elements in ascending order. -/
def sort (ks : List (Packed E)) : List (Packed E) := ks.mergeSort fun k l => (compare k l).isLE

/-! ## Packing -/

variable [Formatted E]

/-- Packs an element. -/
def of (e : E) : Packed E := ⟨(format : Format E).encode e, e⟩

@[simp]
theorem element_of (e : E) : (of e).element = e := rfl

/-- Packs the sum of two elements. -/
def add [Add E] (k l : Packed E) : Packed E := of (k.element + l.element)

/-! ## Bytes -/

/-- The packed element that a byte string as a whole encodes. -/
def deserialize (b : Bytes) : Except Error (Packed E) := ((format : Format E).ofBytes b).map of

/-- The encoding of a packed element. -/
def serialize (k : Packed E) : Bytes := k.raw

instance : Formatted (Packed E) :=
  ⟨{ size := (format : Format E).size
     label := "bn254"
     encode := raw
     parse := fun b => ((format : Format E).parse b).map fun e => ⟨b, e⟩ }⟩

end Packed

/-! ## Hashing -/

/-- What a value enters a hash with: its encoding. -/
def hashInput {α : Type} [Formatted α] (a : α) : Bytes := format.encode a

/-- Whether two values enter every hash alike. -/
def sameHash {α : Type} [Formatted α] (a b : α) : Bool := hashInput a == hashInput b

/-! ## Text -/

/-- What stands in the place of a secret. -/
def redacted : String := "[REDACTED]"

/-- The text of an encoding. -/
def showEncoding {α : Type} [Formatted α] (a : α) : String := (format.encode a).toHex

/-- The description of a scalar. -/
def Scalar.describe (_ : Scalar) : String := "Scalar(" ++ redacted ++ ")"

/-- The description of a point of `G1`. -/
def G1.describe (P : G1) : String := "G1(" ++ showEncoding P ++ ")"

/-- The description of a point of `G2`. -/
def G2.describe (Q : G2) : String := "G2(" ++ showEncoding Q ++ ")"

/-- The description of a private key. -/
def PrivateKey.describe (_ : PrivateKey) : String := "PrivateKey(" ++ redacted ++ ")"

/-- The text of a private key. -/
def PrivateKey.text (_ : PrivateKey) : String := redacted

/-- The text of a public key. -/
def PublicKey.text (k : PublicKey) : String := showEncoding k

/-- The text of a signature. -/
def Signature.text (s : Signature) : String := showEncoding s

end BlsBn254
