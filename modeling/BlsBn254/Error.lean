/-!
# Errors

What can be wrong with bytes offered as a group element, with a signature, or
with a request for hashed bytes. Every cause has a sentence for the reader
(`Error.message`), a phrase without its numbers (`Error.reason`), and a symbol
that spells out the cause with its numbers for a log (`Error.symbol`).
-/

namespace BlsBn254

/-- A reason to refuse. -/
inductive Error
  /-- The bytes are not as many as the encoding has. -/
  | invalidLength (expected actual : Nat)
  /-- A number is not below the modulus. -/
  | nonCanonical
  /-- The coordinates do not satisfy the equation of the curve. -/
  | notOnCurve
  /-- The point is not among those of order `r`. -/
  | notInSubgroup
  /-- The signature is not the one of the message under the key. -/
  | invalidSignature
  /-- The key is the identity. -/
  | invalidPublicKey
  /-- More bytes were asked of the expander than it gives. -/
  | expansionTooLong (requested limit : Nat)
  deriving DecidableEq

namespace Error

/-- The cause in words, without its numbers. -/
def reason : Error → String
  | invalidLength .. => "invalid length"
  | nonCanonical => "non-canonical encoding"
  | notOnCurve => "point not on curve"
  | notInSubgroup => "point not in subgroup"
  | invalidSignature => "invalid signature"
  | invalidPublicKey => "invalid public key"
  | expansionTooLong .. => "expansion too long"

/-- The cause in words, with its numbers. -/
def message : Error → String
  | invalidLength expected actual =>
    reason (invalidLength expected actual) ++ ": expected " ++ toString expected ++ ", got " ++
      toString actual
  | expansionTooLong requested limit =>
    reason (expansionTooLong requested limit) ++ ": " ++ toString requested ++ " > " ++
      toString limit
  | e => e.reason

/-- The name of the cause. -/
def name : Error → String
  | invalidLength .. => "InvalidLength"
  | nonCanonical => "NonCanonical"
  | notOnCurve => "NotOnCurve"
  | notInSubgroup => "NotInSubgroup"
  | invalidSignature => "InvalidSignature"
  | invalidPublicKey => "InvalidPublicKey"
  | expansionTooLong .. => "ExpansionTooLong"

/-- The name of the cause, followed by its numbers. -/
def symbol : Error → String
  | invalidLength expected actual =>
    "InvalidLength \x7b expected: " ++ toString expected ++ ", actual: " ++ toString actual ++
      " \x7d"
  | expansionTooLong requested limit =>
    "ExpansionTooLong(" ++ toString requested ++ ", " ++ toString limit ++ ")"
  | e => e.name

end Error

end BlsBn254
