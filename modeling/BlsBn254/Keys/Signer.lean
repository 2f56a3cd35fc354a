import BlsBn254.Keys.Log
import BlsBn254.Scheme.Signing

/-!
# Signers

A private key comes from a source of random bytes, from a number that determines
such a source, or from its encoding. It gives a public key, signatures of
messages and a proof of its possession, all of them packed.
-/

namespace BlsBn254

namespace PrivateKey

/-- The private key drawn from a source. -/
def random : StateM Source PrivateKey := do
  let (k, _) ← Scheme.keypair
  return .of k

/-- The private key that a number determines. -/
def ofSeed (seed : UInt64) : PrivateKey := (random.run (ChaCha.source seed)).1

/-- The public key. -/
def publicKey (k : PrivateKey) : PublicKey := .of (Scheme.publicKey k.element)

/-- The signature of a message, within a namespace if there is one. -/
def sign (k : PrivateKey) (ns : Option Bytes) (message : Bytes) : Signature :=
  .of (Scheme.signMessage k.element ns message)

/-- The proof of possession. -/
def provePossession (k : PrivateKey) : Signature := .of (Scheme.provePossession k.element)

/-- What is left of a private key that has been wiped. -/
def wipe (_ : PrivateKey) : PrivateKey := ⟨Bytes.zeros (format : Format PrivateKey).size, 0⟩

end PrivateKey

/-- What is left of a scalar that has been wiped. -/
def Scalar.wipe (_ : Scalar) : Scalar := 0

/-- The public keys of private keys, in order. -/
def publicKeys (ks : List PrivateKey) : List PublicKey := ks.map PrivateKey.publicKey

/-! ## Aggregation -/

/-- The sum of public keys. -/
def aggregatePublicKeys (ks : List PublicKey) : Logged PublicKey := do
  .report (.aggregatingPublicKeys ks.length)
  return .of (Scheme.aggregate (ks.map Packed.element))

/-- The sum of signatures. -/
def aggregateSignatures (ss : List Signature) : Logged Signature := do
  .report (.aggregatingSignatures ss.length)
  return .of (Scheme.aggregate (ss.map Packed.element))

end BlsBn254
