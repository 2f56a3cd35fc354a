import BlsBn254.Curve.Groups

/-!
# From the field to the curve

Every element `t` of the base field is taken to a point of the curve. Three
candidates for the first coordinate are made of `t`, such that the product of
their values of `x³ + 3` is a square; so at least one of these is a square, and
the first that is gives the point. Which of its two second coordinates is taken
depends on whether `t` is a square itself, so that opposite elements have
opposite points.

With `s` a square root of `-3`, the candidates are

    x₁ = (s - 1) / 2 - s t² / (t² + 4),   x₂ = -1 - x₁,   x₃ = 1 - (t² + 4)² / (3 t²),

computed with a single inversion. The sum of the images of two hashed elements
is close to uniform on the curve, which one image is not.
-/

namespace BlsBn254

namespace CurveMap

/-- A square root of `-3`. -/
def rootMinusThree : Fp := .ofNat 4407920970296243842837207485651524041948558517760411303933

/-- Half of the root less one: a third root of unity. -/
def rootOfUnity : Fp := .ofNat 2203960485148121921418603742825762020974279258880205651966

/-- The second coordinate over `x`, with whether there is one. -/
def liftX (x : Fp) : Fp × Bool := Fp.sqrt (Point.ySquared G1.curveConstant x)

/-- The candidates for the first coordinate of the image of `t`, in order. -/
def candidates (t : Fp) : Fp × Fp × Fp :=
  let d := t * t + .ofNat 4
  let n := t * rootMinusThree
  let i := (n * d)⁻¹
  let x₁ := rootOfUnity - t * (n * n * i)
  let x₂ := -(x₁ + 1)
  let dd := d * d
  let x₃ := dd * dd * (i * i) + 1
  (x₁, x₂, x₃)

/-- The coordinates of the first candidate that lies under the curve, if one does. -/
def choose (c : Fp × Fp × Fp) : Option (Fp × Fp) :=
  let (x₁, x₂, x₃) := c
  let (y₁, found₁) := liftX x₁
  let (y₂, found₂) := liftX x₂
  if found₁ then some (x₁, y₁)
  else if found₂ then some (x₂, y₂)
  else
    let (y₃, found₃) := liftX x₃
    if found₃ then some (x₃, y₃) else none

/-- The image of `t`, if one of its candidates lies under the curve. -/
def toPoint? (t : Fp) : Option G1 :=
  (choose (candidates t)).map fun (x, y) => .affine x (if (Fp.sqrt t).2 then y else -y)

/-- The image of `t`. As every `t` has a candidate that lies under the curve, the
    point at infinity is never taken. -/
def toPoint (t : Fp) : G1 := (toPoint? t).getD .infinity

end CurveMap

end BlsBn254
