import BlsBn254.Scheme.Signing

/-!
# Verification of elements

A signature `S` of bytes that hash to `H` is the one under the public key `Q` if
the pairing of `H` and `Q` is that of `S` and the generator: both are the
pairing of `H` and the generator to the power of the private key. As a pairing
is additive, it suffices that the product of the pairing of `H` and `Q` and of
that of `-S` and the generator is one.

The identity is the public key of the private key zero, which signs everything
by the identity; it is refused.

Nothing but the product of pairings is asked of the pairing, so verification is
defined for any (`PairingProduct`).
-/

namespace BlsBn254

/-- A product of pairings, of a list of pairs of points. -/
abbrev PairingProduct (T : Type) := List (G1 × G2) → T

namespace Scheme

variable {T : Type} [One T] [DecidableEq T] (pairing : PairingProduct T)

/-- Whether the pairing of `H` and the public key is that of the signature and
    the generator. -/
def agrees (Q : G2) (H S : G1) : Bool := pairing [(H, Q), (-S, G2.generator)] = 1

/-- Verifies the signature of bytes under a tag. -/
def verify (Q : G2) (tag bytes : Bytes) (S : G1) : Except Error Unit :=
  if Q = 0 then .error .invalidPublicKey
  else if agrees pairing Q (hashToCurve tag bytes) S then .ok ()
  else .error .invalidSignature

/-- Verifies the signature of a message, within a namespace if there is one. -/
def verifyMessage (Q : G2) (ns : Option Bytes) (message : Bytes) (S : G1) : Except Error Unit :=
  verify pairing Q Tag.message (Payload.ofMessage ns message) S

/-- Verifies the proof that the holder of a public key has the private key. -/
def verifyPossession (Q : G2) (S : G1) : Except Error Unit :=
  verify pairing Q Tag.possession Q.encode S

/-- Verifies the aggregate of the signatures of a message under several keys. -/
def verifyAggregate (Qs : List G2) (ns : Option Bytes) (message : Bytes) (S : G1) :
    Except Error Unit :=
  verifyMessage pairing (aggregate Qs) ns message S

end Scheme

end BlsBn254
