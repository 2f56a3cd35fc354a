import BlsBn254.Keys.Signer
import BlsBn254.Scheme.Verification

/-!
# Verifiers

A signature is verified under a public key, under the sum of several, or both
may be given by their bytes. Verification answers yes or no, whatever bytes it
is given; the log has the reason of a no. Of bytes, the keys are looked at in
order, then the signature, and what comes after the first fault is not looked at
at all.
-/

namespace BlsBn254

variable {T : Type} [One T] [DecidableEq T] (pairing : PairingProduct T)

namespace PublicKey

/-- Verifies the signature of a message, within a namespace if there is one. -/
def verify (k : PublicKey) (ns : Option Bytes) (message : Bytes) (s : Signature) : Logged Bool :=
  match Scheme.verifyMessage pairing k.element ns message s.element with
  | .ok () => return true
  | .error cause => do
    .report (.rejectedSignature cause k)
    return false

/-- Verifies the proof that the holder of a public key has the private key. -/
def verifyPossession (k : PublicKey) (s : Signature) : Bool :=
  match Scheme.verifyPossession pairing k.element s.element with
  | .ok () => true
  | .error _ => false

end PublicKey

/-- Verifies the aggregate of the signatures of a message under several keys. -/
def verifyAggregated (ks : List PublicKey) (ns : Option Bytes) (message : Bytes) (s : Signature) :
    Logged Bool := do
  let k ← aggregatePublicKeys ks
  k.verify pairing ns message s

/-! ## Bytes -/

/-- Goes on with the signature that bytes encode, if they encode one. -/
def withSignature (s : Bytes) (verify : Signature → Logged Bool) : Logged Bool :=
  match Packed.deserialize s with
  | .ok s => verify s
  | .error cause => do
    .report (.invalidSignature cause)
    return false

/-- Verifies the signature of a message under a public key, both given by their
    bytes. -/
def verifyBytes (k : Bytes) (ns : Option Bytes) (message : Bytes) (s : Bytes) : Logged Bool :=
  match Packed.deserialize k with
  | .ok (k : PublicKey) => withSignature s fun s => k.verify pairing ns message s
  | .error cause => do
    .report (.invalidPublicKey cause none)
    return false

/-- The public keys that byte strings encode, or the index and the cause of the
    first that encodes none; the indices count from `i`. -/
def deserializeKeys : (i : Nat) → List Bytes → Except (Nat × Error) (List PublicKey)
  | _, [] => .ok []
  | i, k :: ks =>
    match Packed.deserialize k with
    | .ok k => (deserializeKeys (i + 1) ks).map (k :: ·)
    | .error cause => .error (i, cause)

/-- Verifies the aggregate of the signatures of a message under several keys, all
    given by their bytes. -/
def verifyAggregatedBytes (ks : List Bytes) (ns : Option Bytes) (message : Bytes) (s : Bytes) :
    Logged Bool :=
  match deserializeKeys 0 ks with
  | .ok ks => withSignature s fun s => verifyAggregated pairing ks ns message s
  | .error (i, cause) => do
    .report (.invalidPublicKey cause (some i))
    return false

end BlsBn254
