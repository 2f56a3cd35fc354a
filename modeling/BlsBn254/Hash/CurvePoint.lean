import BlsBn254.Curve.Map
import BlsBn254.Field.Base
import BlsBn254.Hash.Expander

/-!
# Hashing to the curve

A message is hashed to `n` elements of the base field by expanding it to `n`
chunks of forty-eight bytes and reducing each modulo `p` (`FieldHash.elements`).
A chunk is sixteen bytes longer than an element, so the result is close to
uniform. The reduction takes the two halves of a chunk apart, neither of which
reaches the modulus.

It is hashed to a point of `G1` by hashing it to two field elements and adding up
their images (`hashToCurve`). The two uses of the hash in this library, for
messages and for proofs of possession, have each a tag of their own.
-/

namespace BlsBn254

/-! ## Field elements -/

namespace FieldHash

/-- The length of the chunk that is reduced to one element. -/
def chunkLength : Nat := 48

/-- Two to the power of 192, the weight of the first half of a chunk. -/
def twoPow192 : Fp := .ofNat 6277101735386680763835789423207666416102355444464034512896

/-- The residue of the number a chunk writes. -/
def reduce (chunk : Bytes) : Fp :=
  let half := chunkLength / 2
  Residue.ofBytes (chunk.take half) * twoPow192 + Residue.ofBytes (chunk.drop half)

/-- The chunk of index `i`. -/
def chunk (bytes : Bytes) (i : Nat) : Bytes := (bytes.drop (chunkLength * i)).take chunkLength

/-- The `n` field elements that the message hashes to under a tag. -/
def elements (message tag : Bytes) (n : Nat) : Vector Fp n :=
  let bytes := Expander.expand message tag (chunkLength * n)
  .ofFn fun i => reduce (chunk bytes i)

end FieldHash

/-! ## Points -/

/-- The point that a message hashes to under a tag. -/
def hashToCurve (tag message : Bytes) : G1 :=
  let t := FieldHash.elements message tag 2
  CurveMap.toPoint t[0] + CurveMap.toPoint t[1]

namespace Tag

/-- The text of the tag under which messages are signed. -/
def messageText : String := "BLS_SIG_BN254G1_XMD:SHA-256_FT_RO_NUL_V01_"

/-- The text of the tag under which the possession of a key is proved. -/
def possessionText : String := "BLS_POP_BN254G1_XMD:SHA-256_FT_RO_POP_V01_"

/-- The tag under which messages are signed. -/
def message : Bytes := Bytes.ofString messageText

/-- The tag under which the possession of a key is proved. -/
def possession : Bytes := Bytes.ofString possessionText

end Tag

end BlsBn254
