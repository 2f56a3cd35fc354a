import BlsBn254.BinaryMethod

/-!
# Points of a curve

A point of a curve `y² = x³ + b` over a field is the point at infinity or a
pair of coordinates, and its *opposite* has the second coordinate negated. Points
are added by the chord-and-tangent law: the line through two points, or the
tangent where they agree, meets the curve in a third point, whose opposite is
the sum. The point at infinity is neutral, and opposite points add up to it. The
formulas do not mention `b`, so a sum lies on whichever of the curves its
summands lie on.

A point is not tied to a curve by its type: `Point.OnCurve` says that it lies on
one.
-/

namespace BlsBn254

/-- A point: at infinity, or with the coordinates `x` and `y`. -/
inductive Point (F : Type)
  | infinity
  | affine (x y : F)
  deriving DecidableEq

namespace Point

variable {F : Type}

instance : Zero (Point F) := ⟨infinity⟩

/-- The opposite of a point. -/
def neg [Neg F] : Point F → Point F
  | infinity => infinity
  | affine x y => affine x (-y)

instance [Neg F] : Neg (Point F) := ⟨neg⟩

section OnCurve

variable [Add F] [Mul F]

/-- The value `x³ + b`, the square of the second coordinate on the curve. -/
def ySquared (b x : F) : F := x * x * x + b

/-- The point lies on the curve `y² = x³ + b`; the point at infinity always
    does. -/
def OnCurve (b : F) : Point F → Prop
  | infinity => True
  | affine x y => y * y = ySquared b x

instance [DecidableEq F] (b : F) : (P : Point F) → Decidable (P.OnCurve b)
  | infinity => .isTrue trivial
  | affine x y => inferInstanceAs (Decidable (y * y = ySquared b x))

end OnCurve

/-! ## The group law -/

variable [Zero F] [Add F] [Sub F] [Mul F] [Inv F] [DecidableEq F]

/-- The slope of the line through two points that are not opposite: of the chord,
    or of the tangent where the first coordinates agree. -/
@[specialize]
def slope (x₁ y₁ x₂ y₂ : F) : F :=
  if x₁ = x₂ then (x₁ * x₁ + x₁ * x₁ + x₁ * x₁) * (y₁ + y₁)⁻¹ else (y₂ - y₁) * (x₂ - x₁)⁻¹

/-- The sum of two points by the chord-and-tangent law. -/
@[specialize]
def add : Point F → Point F → Point F
  | infinity, Q => Q
  | P, infinity => P
  | affine x₁ y₁, affine x₂ y₂ =>
    if x₁ = x₂ ∧ y₁ + y₂ = 0 then infinity
    else
      let l := slope x₁ y₁ x₂ y₂
      let x₃ := l * l - x₁ - x₂
      affine x₃ (l * (x₁ - x₃) - y₁)

instance : Add (Point F) := ⟨add⟩

@[simp]
theorem infinity_add (P : Point F) : infinity + P = P := by
  cases P <;> rfl

@[simp]
theorem add_infinity (P : Point F) : P + infinity = P := by
  cases P <;> rfl

end Point

end BlsBn254
