import BlsBn254.Curve.Groups
import BlsBn254.Field.Tower

/-!
# The pairing

A pairing takes a point of `G1` and a point of `G2` to an `r`-th root of unity,
additively in both: here the ate pairing, with its values in `Fp12`.

The twist is taken into the curve over `Fp12` by `(x, y) ↦ (x w², y w³)`. For a
point `Q` of the twist and a number `n` there is a function on the curve with a
zero of order `n` at `Q` and no poles but at `n Q` and at infinity. Its value at
a point `P` is a product of the values at `P` of the lines drawn on the way from
`Q` to `n Q` by the binary method (`Pairing.loop`). Vertical lines take their
values in a proper subfield, which the final power sends to one, so they are left
out.

The length of the loop is `6 u²`, the trace of the curve less one, and the final
power (`Pairing.finalPower`) makes the value an `r`-th root of unity. A product
of pairings (`Pairing.product`) needs the final power only once.
-/

namespace BlsBn254

namespace Pairing

/-- The value at the point `(x, y)` of the curve of the line through two points
    of the twist, or of their tangent if they agree; one for a line that is
    vertical or at infinity. -/
def line (x y : Fp) : G2 → G2 → Fp12
  | .affine x₁ y₁, .affine x₂ y₂ =>
    if x₁ = x₂ ∧ y₁ + y₂ = 0 then 1
    else
      let l := Point.slope x₁ y₁ x₂ y₂
      ⟨⟨.ofBase y, 0, 0⟩, ⟨-(l * .ofBase x), l * x₁ - y₁, 0⟩⟩
  | _, _ => 1

/-- The number of points added up along the loop. -/
def loopLength : Nat := 6 * (parameter * parameter)

/-- The product of the lines on the way from `Q` to its multiple by the loop
    length, at the point `P`. -/
def loop : G1 → G2 → Fp12
  | .affine x y, Q =>
    (binaryMethod
      (fun (f, T) => (f * f * line x y T T, T + T))
      (fun (f, T) => (f * line x y T Q, T + Q))
      (1, .infinity) loopLength).1
  | .infinity, _ => 1

/-- The exponent left of `(p ^ 12 - 1) / r` after `p ^ 6 - 1`. -/
def finalExponent : Nat :=
  let q := p * p * p
  (q * q + 1) / r

/-- The power `(p ^ 12 - 1) / r`: as the power `p ^ 6` is the conjugation, the
    power `p ^ 6 - 1` is the quotient of the conjugate by the element itself. -/
def finalPower (f : Fp12) : Fp12 := (f.conj * f⁻¹) ^ finalExponent

/-- The product of the pairings of the given pairs of points. -/
def product (pairs : List (G1 × G2)) : Fp12 :=
  finalPower (pairs.foldl (fun f (P, Q) => f * loop P Q) 1)

end Pairing

end BlsBn254
