import BlsBn254.Codec.Format
import BlsBn254.Curve.Groups

/-!
# The encodings of scalars and points

A scalar is written as its least representative. A point is written as its
coordinates, those of the quadratic extension with the coefficient of `u` first;
the point at infinity is written as zeroes, which are the coordinates of no
point of either curve. Only a canonical encoding of a point of the group is
read back.
-/

namespace BlsBn254

/-- The residue that bytes encode. -/
def Residue.parse {m : Nat} (b : Bytes) : Except Error (Residue m) :=
  match decode b with
  | some a => .ok a
  | none => .error .nonCanonical

instance : Formatted Scalar :=
  ⟨{ size := Residue.encodedLength
     label := "bn254::Scalar"
     encode := Residue.encode
     parse := Residue.parse }⟩

namespace G1

/-- The length of an encoded point. -/
def encodedLength : Nat := 2 * Residue.encodedLength

/-- The encoding of a point. -/
def encode : G1 → Bytes
  | .infinity => Bytes.zeros encodedLength
  | .affine x y => x.encode ++ y.encode

/-- The point that bytes encode. -/
def parse (b : Bytes) : Except Error G1 :=
  if b.isZero then .ok .infinity
  else do
    let x ← Residue.parse (b.take Residue.encodedLength)
    let y ← Residue.parse (b.drop Residue.encodedLength)
    let P : G1 := .affine x y
    if P.OnCurve curveConstant then .ok P else .error .notOnCurve

instance : Formatted G1 := ⟨{ size := encodedLength, label := "bn254::G1", encode, parse }⟩

@[simp]
theorem length_encode (P : G1) : P.encode.length = encodedLength := by
  cases P with
  | infinity => exact List.length_replicate
  | affine x y =>
    simp only [encode, List.length_append, Residue.length_encode, encodedLength]
    omega

end G1

namespace G2

/-- The length of an encoded point. -/
def encodedLength : Nat := 4 * Residue.encodedLength

/-- The encoding of a point. -/
def encode : G2 → Bytes
  | .infinity => Bytes.zeros encodedLength
  | .affine x y => x.im.encode ++ x.re.encode ++ y.im.encode ++ y.re.encode

/-- The bytes of the word of index `i`. -/
def word (b : Bytes) (i : Nat) : Bytes :=
  (b.drop (Residue.encodedLength * i)).take Residue.encodedLength

/-- The point that bytes encode. -/
def parse (b : Bytes) : Except Error G2 :=
  if b.isZero then .ok .infinity
  else do
    let x₁ ← Residue.parse (word b 0)
    let x₀ ← Residue.parse (word b 1)
    let y₁ ← Residue.parse (word b 2)
    let y₀ ← Residue.parse (word b 3)
    let P : G2 := .affine ⟨x₀, x₁⟩ ⟨y₀, y₁⟩
    if ¬P.OnCurve twistConstant then .error .notOnCurve
    else if ¬P.InSubgroup then .error .notInSubgroup
    else .ok P

instance : Formatted G2 := ⟨{ size := encodedLength, label := "bn254::G2", encode, parse }⟩

@[simp]
theorem length_encode (P : G2) : P.encode.length = encodedLength := by
  cases P with
  | infinity => exact List.length_replicate
  | affine x y =>
    simp only [encode, List.length_append, Residue.length_encode, encodedLength]
    omega

end G2

end BlsBn254
