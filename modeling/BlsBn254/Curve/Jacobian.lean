import BlsBn254.Curve.Point

/-!
# Multiples of a point

The sum of two points takes a division, the costliest operation of the field. A
multiple is therefore computed in *Jacobian coordinates*: the triple `(X, Y, Z)`
stands for the point `(X / Z², Y / Z³)`, and for the point at infinity if `Z` is
zero. Doubling such a triple and adding a point to it
(`Jacobian.double`, `Jacobian.addAffine`) need no division, so that the binary
method arrives at a multiple with a single one, at its end (`Point.multiple`).
-/

namespace BlsBn254

/-- Jacobian coordinates of a point. -/
structure Jacobian (F : Type) where
  /-- The first coordinate, times `z ^ 2`. -/
  x : F
  /-- The second coordinate, times `z ^ 3`. -/
  y : F
  /-- The scale, zero at infinity. -/
  z : F

namespace Jacobian

variable {F : Type} [Zero F] [One F] [Add F] [Sub F] [Mul F] [Inv F] [DecidableEq F]

/-- Coordinates of the point at infinity. -/
@[specialize]
def infinity : Jacobian F := ⟨1, 1, 0⟩

/-- The point with the given coordinates. -/
@[specialize]
def toPoint (P : Jacobian F) : Point F :=
  if P.z = 0 then .infinity
  else
    let s := P.z⁻¹
    let s₂ := s * s
    .affine (P.x * s₂) (P.y * (s₂ * s))

/-- The double of a point, along the tangent. -/
@[specialize]
def double (P : Jacobian F) : Jacobian F :=
  let yy := P.y * P.y
  let xyy := P.x * yy
  let s := xyy + xyy + (xyy + xyy)
  let xx := P.x * P.x
  let m := xx + xx + xx
  let x := m * m - (s + s)
  let yyyy := yy * yy
  let t := yyyy + yyyy + (yyyy + yyyy)
  let yz := P.y * P.z
  ⟨x, m * (s - x) - (t + t), yz + yz⟩

/-- The sum of a point and the point with the coordinates `x` and `y`, along the
    chord, or along the tangent where they agree. -/
@[specialize]
def addAffine (x y : F) (P : Jacobian F) : Jacobian F :=
  if P.z = 0 then ⟨x, y, 1⟩
  else
    let zz := P.z * P.z
    let h := x * zz - P.x
    let k := y * (zz * P.z) - P.y
    -- the points have the same first coordinate if `h` is zero, and the second if `k` is
    if h = 0 then
      if k = 0 then P.double else infinity
    else
      let hh := h * h
      let hhh := hh * h
      let v := P.x * hh
      let x₃ := k * k - hhh - (v + v)
      ⟨x₃, k * (v - x₃) - P.y * hhh, P.z * h⟩

end Jacobian

namespace Point

variable {F : Type} [Zero F] [One F] [Add F] [Sub F] [Mul F] [Inv F] [DecidableEq F]

/-- The sum of `n` copies of a point. -/
@[specialize]
def multiple (n : Nat) : Point F → Point F
  | infinity => infinity
  | affine x y =>
    (binaryMethod Jacobian.double (Jacobian.addAffine x y) Jacobian.infinity n).toPoint

instance : SMul Nat (Point F) := ⟨multiple⟩

end Point

end BlsBn254
