import BlsBn254.Proofs.Curve.Multiple

/-!
# Jacobian coordinates of the same point

A point has as many triples of Jacobian coordinates as there are scales, and those of
the point at infinity are arbitrary where the scale is zero. Two triples can be compared
without a division, by products across (`Jacobian.SamePoint`), and that decides whether
they belong to the same point (`Jacobian.toPoint_eq_toPoint_iff`). In the same way it can
be told from a triple whether its point lies on a curve (`Jacobian.onCurve_toPoint_iff`).
-/

namespace BlsBn254

variable {F : Type} [Field F]

/-- The equation of a curve, with powers. -/
theorem Point.onCurve_iff {b : F} {P : Point F} :
    P.OnCurve b ↔ P = 0 ∨ ∃ x y : F, P = .affine x y ∧ y ^ 2 = x ^ 3 + b := by
  constructor
  · intro hP
    cases P with
    | infinity => exact .inl rfl
    | affine x y =>
      refine .inr ⟨x, y, rfl, ?_⟩
      rw [pow_two, pow_succ, pow_two]
      exact hP
  · rintro (rfl | ⟨x, y, rfl, h⟩)
    · trivial
    · rw [pow_two, pow_succ, pow_two] at h
      exact h

theorem G1.curveConstant_eq : curveConstant = 3 := rfl

namespace Jacobian

/-- The coordinates of a point with the scale one, or zero at infinity. -/
def ofPoint : Point F → Jacobian F
  | .infinity => infinity
  | .affine x y => ⟨x, y, 1⟩

/-- The coordinates belong to the same point: both are at infinity, or neither is and
    they agree once the scales are multiplied across. -/
def SamePoint (P Q : Jacobian F) : Prop :=
  (P.z = 0 ∧ Q.z = 0) ∨
    (P.z ≠ 0 ∧ Q.z ≠ 0 ∧ P.x * Q.z ^ 2 = Q.x * P.z ^ 2 ∧ P.y * Q.z ^ 3 = Q.y * P.z ^ 3)

/-- The coordinates are at infinity, or satisfy the equation of the curve
    `y² = x³ + b` with the scale in it. -/
def OnCurve (b : F) (P : Jacobian F) : Prop := P.z = 0 ∨ P.y ^ 2 = P.x ^ 3 + b * P.z ^ 6

variable [DecidableEq F]

@[simp]
theorem toPoint_ofPoint (P : Point F) : (ofPoint P).toPoint = P := by
  cases P with
  | infinity => exact toPoint_of_eq_zero rfl
  | affine x y =>
    rw [toPoint_of_ne_zero (P := ofPoint (.affine x y)) one_ne_zero, ofPoint, one_pow, one_pow,
      div_one, div_one]

/-- Coordinates are compared without finding the points. -/
theorem toPoint_eq_toPoint_iff {P Q : Jacobian F} : P.toPoint = Q.toPoint ↔ P.SamePoint Q := by
  rw [SamePoint]
  rcases eq_or_ne P.z 0 with hP | hP
  · rcases eq_or_ne Q.z 0 with hQ | hQ
    · simp [toPoint_of_eq_zero hP, toPoint_of_eq_zero hQ, hP, hQ]
    · simp [toPoint_of_eq_zero hP, toPoint_of_ne_zero hQ, hP, hQ]
  · rcases eq_or_ne Q.z 0 with hQ | hQ
    · simp [toPoint_of_ne_zero hP, toPoint_of_eq_zero hQ, hP, hQ]
    · -- Neither is at infinity: fractions are compared.
      rw [toPoint_of_ne_zero hP, toPoint_of_ne_zero hQ, Point.affine.injEq,
        div_eq_div_iff (pow_ne_zero 2 hP) (pow_ne_zero 2 hQ),
        div_eq_div_iff (pow_ne_zero 3 hP) (pow_ne_zero 3 hQ)]
      simp [hP, hQ]

/-- A point lies on the curve if its coordinates satisfy the equation. -/
theorem onCurve_toPoint_iff {b : F} {P : Jacobian F} : P.toPoint.OnCurve b ↔ P.OnCurve b := by
  rw [OnCurve]
  rcases eq_or_ne P.z 0 with hz | hz
  · rw [toPoint_of_eq_zero hz]
    exact iff_of_true trivial (.inl hz)
  · rw [toPoint_of_ne_zero hz, Point.OnCurve, Point.ySquared, or_iff_right hz]
    -- The denominators are cleared by the sixth power of the scale.
    field_simp

end Jacobian

end BlsBn254
