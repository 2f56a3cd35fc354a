import BlsBn254.Codec.Elements
import BlsBn254.Hash.CurvePoint
import BlsBn254.Random.Source

/-!
# Keys and signatures as elements

A private key is a scalar, its public key the product of the generator of `G2`
by it, and its signature of a message the product by it of the point of `G1`
that the message hashes to. Signatures of the same message, and public keys, are
aggregated by adding them up; as products by scalars are additive, the sum of
the signatures is the signature under the sum of the keys.

A message may be signed within a *namespace*. What is signed then is the payload
made of the length of the namespace, the namespace and the message; without a
namespace it is the message alone (`Payload.ofMessage`). The length is written so
that no length begins with another (`Payload.varint`), which keeps the payloads
of different namespaces apart. An empty namespace has a length too: it is not the
same as none.

A *proof of possession* of a private key is its signature of its own public key,
under a tag that no message is signed under.
-/

namespace BlsBn254

/-! ## Payloads -/

namespace Payload

/-- A number in groups of seven bits, lowest first; every byte but the last has
    its highest bit set. -/
def varint (n : Nat) : Bytes :=
  if n < 128 then [UInt8.ofNat n] else UInt8.ofNat (n % 128 + 128) :: varint (n / 128)
termination_by n
decreasing_by omega

/-- The message within a namespace. -/
def within (namespaceBytes message : Bytes) : Bytes :=
  varint namespaceBytes.length ++ namespaceBytes ++ message

/-- What is signed for a message, within a namespace if there is one. -/
def ofMessage (ns : Option Bytes) (message : Bytes) : Bytes :=
  match ns with
  | some ns => within ns message
  | none => message

end Payload

/-! ## Random scalars -/

namespace Scalar

/-- The number of random bytes reduced to a scalar: twice as many as it has, so
    that every scalar comes out about as often as any other. -/
def seedLength : Nat := 64

/-- The scalar drawn from a source. -/
def random : StateM Source Scalar := do
  let bytes ← Source.draw seedLength
  return .ofBytes bytes

end Scalar

/-! ## Keys -/

namespace Scheme

/-- The public key of a private key. -/
def publicKey (k : Scalar) : G2 := k • G2.generator

/-- The pair of a private key drawn from a source and its public key. -/
def keypair : StateM Source (Scalar × G2) := do
  let k ← Scalar.random
  return (k, publicKey k)

/-- The first `n` pairs drawn from a source. -/
def keypairs : (n : Nat) → StateM Source (List (Scalar × G2))
  | 0 => return []
  | n + 1 => do
    let first ← keypair
    let others ← keypairs n
    return first :: others

/-! ## Signatures -/

/-- The signature of bytes under a tag. -/
def sign (k : Scalar) (tag bytes : Bytes) : G1 := k • hashToCurve tag bytes

/-- The signature of a message, within a namespace if there is one. -/
def signMessage (k : Scalar) (ns : Option Bytes) (message : Bytes) : G1 :=
  sign k Tag.message (Payload.ofMessage ns message)

/-- The proof that the holder of a public key has the private key. -/
def provePossession (k : Scalar) : G1 := sign k Tag.possession (publicKey k).encode

/-! ## Aggregation -/

/-- The sum of a list of elements. -/
def aggregate {E : Type} [Zero E] [Add E] (elements : List E) : E := elements.foldl (· + ·) 0

end Scheme

end BlsBn254
