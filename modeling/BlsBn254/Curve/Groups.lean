import BlsBn254.Curve.Jacobian
import BlsBn254.Field.Quadratic

/-!
# The two groups

The curve `y² = x³ + 3` over the base field has `r` points: they are the group
`G1`. Its *twist* `y² = x³ + 3 / (9 + u)` over the quadratic extension has more
points, and the group `G2` is made of those that `r` takes to infinity. A
product by a scalar is the multiple by its least representative, which depends
on the scalar alone because both groups have order `r`.

As points are not tied to a group by their type, `G1.IsValid` and `G2.IsValid`
say which of them belong to it.
-/

namespace BlsBn254

/-- A scalar multiplies a point by its least representative. -/
instance {F : Type} [SMul Nat (Point F)] : SMul Scalar (Point F) := ⟨fun s P => s.val • P⟩

/-- A point over the base field. -/
abbrev G1 := Point Fp

namespace G1

/-- The constant of the curve. -/
def curveConstant : Fp := .ofNat 3

/-- The generator. -/
def generator : G1 := .affine (.ofNat 1) (.ofNat 2)

/-- The points of the group: all those on the curve. -/
def IsValid (P : G1) : Prop := P.OnCurve curveConstant

instance (P : G1) : Decidable P.IsValid := inferInstanceAs (Decidable (P.OnCurve curveConstant))

end G1

/-- A point over the quadratic extension. -/
abbrev G2 := Point Fp2

namespace G2

/-- The constant of the twist. -/
def twistConstant : Fp2 := Fp2.ofBase (.ofNat 3) * Fp2.xi⁻¹

/-- The generator. -/
def generator : G2 :=
  .affine
    ⟨.ofNat 0x1800deef121f1e76426a00665e5c4479674322d4f75edadd46debd5cd992f6ed,
      .ofNat 0x198e9393920d483a7260bfb731fb5d25f1aa493335a9e71297e485b7aef312c2⟩
    ⟨.ofNat 0x12c85ea5db8c6deb4aab71808dcb408fe3d1e7690c43d37b4ce6cc0166fa7daa,
      .ofNat 0x090689d0585ff075ec9e99ad690c3395bc4b313370b38ef355acdadcd122975b⟩

/-- The point lies in the subgroup of order `r`. -/
def InSubgroup (P : G2) : Prop := r • P = .infinity

instance (P : G2) : Decidable P.InSubgroup := inferInstanceAs (Decidable (r • P = .infinity))

/-- The points of the group: those of the twist that lie in the subgroup. -/
def IsValid (P : G2) : Prop := P.OnCurve twistConstant ∧ P.InSubgroup

instance (P : G2) : Decidable P.IsValid :=
  inferInstanceAs (Decidable (P.OnCurve twistConstant ∧ P.InSubgroup))

end G2

end BlsBn254
