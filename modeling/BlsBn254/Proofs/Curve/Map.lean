import BlsBn254.Proofs.Curve.Order

/-!
# The map to the curve is total

Of the three candidates for the first coordinate, one lies under the curve: with
`v` the first of them, and `z` such that the third is `1 + z²`, the numbers are
chosen such that `z² (1 + v + v²) = -4`, and this makes the product of the three
values of `x³ + 3` a square (`CurveMap.mul_ySquared_candidates`). At zero, where the
number to be inverted is zero, the first candidate is a third root of unity, and
lies under the curve as four is a square.

So the image of every element is a point of the curve, apart from infinity
(`CurveMap.toPoint_total`).
-/

namespace BlsBn254

namespace CurveMap

/-! ## The candidates -/

/-- The product of the values at the three candidates is a square. -/
theorem mul_ySquared_candidates {v z : Fp} (h : z * z * (1 + v + v * v) = -4) :
    IsSquare (Point.ySquared 3 v * Point.ySquared 3 (-(v + 1)) * Point.ySquared 3 (z * z + 1)) := by
  -- Each value is a product: the constant of the curve is four less one, and four is
  -- taken from the equation.
  have h₁ : Point.ySquared 3 v = (1 + v + v * v) * (v - 1 - z * z) := by
    rw [Point.ySquared]
    linear_combination h
  have h₂ : Point.ySquared 3 (-(v + 1)) = (1 + v + v * v) * (-(v + 2) - z * z) := by
    rw [Point.ySquared]
    linear_combination h
  have h₃ : Point.ySquared 3 (z * z + 1) = z * z * ((z * z + 1 - v) * (z * z + 2 + v)) := by
    rw [Point.ySquared]
    linear_combination h
  refine ⟨z * (1 + v + v * v) * ((z * z + 1 - v) * (z * z + 2 + v)), ?_⟩
  rw [h₁, h₂, h₃]
  ring

theorem rootMinusThree_mul_self : rootMinusThree * rootMinusThree = -3 := by decide

theorem two_mul_rootOfUnity_add_one : 2 * rootOfUnity + 1 = rootMinusThree := by decide

theorem rootOfUnity_quadratic : 1 + rootOfUnity + rootOfUnity * rootOfUnity = 0 := by decide

theorem rootMinusThree_ne_zero : rootMinusThree ≠ 0 := by decide

/-- The number that is inverted has no zero but at zero: `-4` is no square. -/
theorem mul_self_add_four_ne_zero (t : Fp) : t * t + .ofNat 4 ≠ 0 := by
  intro h
  -- A sum of two squares is zero only if both are.
  have hsum : t * t + 2 * 2 = 0 := by
    rw [← h, show (Residue.ofNat 4 : Fp) = 2 * 2 by decide]
  exact absurd (Fp.eq_zero_of_mul_self_add_mul_self hsum).2 (by decide)

theorem candidates_zero : candidates 0 = (rootOfUnity, -(rootOfUnity + 1), 1) := by decide +kernel

/-- The candidates as fractions. -/
theorem candidates_of_ne_zero {t : Fp} (ht : t ≠ 0) :
    candidates t =
      (rootOfUnity - rootMinusThree * t ^ 2 / (t ^ 2 + 4),
        -(rootOfUnity - rootMinusThree * t ^ 2 / (t ^ 2 + 4) + 1),
        (t ^ 2 + 4) / (t * rootMinusThree) * ((t ^ 2 + 4) / (t * rootMinusThree)) + 1) := by
  have hd : t * t + 4 ≠ 0 := mul_self_add_four_ne_zero t
  have hs := rootMinusThree_ne_zero
  have h₁ : t * (t * rootMinusThree * (t * rootMinusThree) * (t * rootMinusThree * (t * t + 4))⁻¹) =
      rootMinusThree * t ^ 2 / (t ^ 2 + 4) := by
    rw [pow_two]
    field_simp
  have h₃ : (t * t + 4) * (t * t + 4) * ((t * t + 4) * (t * t + 4)) *
      ((t * rootMinusThree * (t * t + 4))⁻¹ * (t * rootMinusThree * (t * t + 4))⁻¹) =
        (t ^ 2 + 4) / (t * rootMinusThree) * ((t ^ 2 + 4) / (t * rootMinusThree)) := by
    rw [pow_two]
    field_simp
  rw [← h₁, ← h₃]
  rfl

/-- The equation between the first and the third candidate. -/
theorem candidates_relation {t : Fp} (ht : t ≠ 0) {v z : Fp}
    (hv : v = rootOfUnity - rootMinusThree * t ^ 2 / (t ^ 2 + 4))
    (hz : z = (t ^ 2 + 4) / (t * rootMinusThree)) : z * z * (1 + v + v * v) = -4 := by
  have hd : t ^ 2 + 4 ≠ 0 := by
    rw [pow_two]
    exact mul_self_add_four_ne_zero t
  have hs := rootMinusThree_ne_zero
  have h₃ : (3 : Fp) ≠ 0 := by decide
  have hv' : 1 + v + v * v = 12 * t ^ 2 / (t ^ 2 + 4) ^ 2 := calc
    1 + v + v * v = rootMinusThree * rootMinusThree *
        ((t ^ 2 / (t ^ 2 + 4)) ^ 2 - t ^ 2 / (t ^ 2 + 4)) := by
      rw [hv]
      linear_combination rootOfUnity_quadratic -
        rootMinusThree * t ^ 2 / (t ^ 2 + 4) * two_mul_rootOfUnity_add_one
    _ = 12 * t ^ 2 / (t ^ 2 + 4) ^ 2 := by
      rw [rootMinusThree_mul_self]
      field_simp
      ring
  have hz' : z * z = (t ^ 2 + 4) ^ 2 / (t ^ 2 * -3) := by
    rw [hz, ← rootMinusThree_mul_self]
    field_simp
  rw [hv', hz']
  field_simp
  ring

/-- One of the candidates lies under the curve. -/
theorem exists_isSquare_candidates (t : Fp) :
    IsSquare (Point.ySquared G1.curveConstant (candidates t).1) ∨
      IsSquare (Point.ySquared G1.curveConstant (candidates t).2.1) ∨
      IsSquare (Point.ySquared G1.curveConstant (candidates t).2.2) := by
  rcases eq_or_ne t 0 with rfl | ht
  · -- The first candidate is a third root of unity, with the value four.
    rw [candidates_zero]
    exact .inl ⟨2, by decide⟩
  · rw [candidates_of_ne_zero ht]
    exact isSquare_of_isSquare_mul (mul_ySquared_candidates (candidates_relation ht rfl rfl))

/-! ## The point -/

theorem liftX_found_iff (x : Fp) :
    (liftX x).2 = true ↔ IsSquare (Point.ySquared G1.curveConstant x) := Fp.sqrt_found_iff _

/-- What is found over `x` lies on the curve. -/
theorem onCurve_liftX {x : Fp} (hx : (liftX x).2 = true) :
    (Point.affine x (liftX x).1).OnCurve G1.curveConstant := (Fp.sqrt_found _).1 hx

/-- A choice is made if one of three candidates lies under the curve, and it lies on
    the curve. -/
theorem exists_choose_eq {x₁ x₂ x₃ : Fp}
    (h : (liftX x₁).2 = true ∨ (liftX x₂).2 = true ∨ (liftX x₃).2 = true) :
    ∃ x y, choose (x₁, x₂, x₃) = some (x, y) ∧
      (Point.affine x y).OnCurve G1.curveConstant := by
  by_cases h₁ : (liftX x₁).2 = true
  · exact ⟨x₁, _, if_pos h₁, onCurve_liftX h₁⟩
  by_cases h₂ : (liftX x₂).2 = true
  · exact ⟨x₂, _, (if_neg h₁).trans (if_pos h₂), onCurve_liftX h₂⟩
  · have h₃ := (h.resolve_left h₁).resolve_left h₂
    exact ⟨x₃, _, (if_neg h₁).trans ((if_neg h₂).trans (if_pos h₃)), onCurve_liftX h₃⟩

/-- Every element has an image on the curve. -/
theorem exists_toPoint?_eq (t : Fp) :
    ∃ x y, toPoint? t = some (.affine x y) ∧ (Point.affine x y).OnCurve G1.curveConstant := by
  have h := exists_isSquare_candidates t
  simp only [← liftX_found_iff] at h
  obtain ⟨x, y, hc, hon⟩ := exists_choose_eq h
  refine ⟨x, if (Fp.sqrt t).2 then y else -y, ?_, ?_⟩
  · rw [toPoint?, hc]
    rfl
  · split
    · exact hon
    · exact hon.neg

theorem isValid_toPoint (t : Fp) : (toPoint t).IsValid := by
  obtain ⟨x, y, h, hon⟩ := exists_toPoint?_eq t
  rw [toPoint, h]
  exact hon

/-- The map is total and lands on the curve: `t² + 4` has no zero, one of the
    candidates lies under the curve, so that the third is not missed where the others
    are, and the image is a point of the curve with a second coordinate other than
    zero. -/
theorem toPoint_total (t : Fp) :
    t * t + .ofNat 4 ≠ 0 ∧
      (IsSquare (Point.ySquared G1.curveConstant (candidates t).1) ∨
        IsSquare (Point.ySquared G1.curveConstant (candidates t).2.1) ∨
        IsSquare (Point.ySquared G1.curveConstant (candidates t).2.2)) ∧
      ¬((liftX (candidates t).1).2 = false ∧ (liftX (candidates t).2.1).2 = false ∧
        (liftX (candidates t).2.2).2 = false) ∧
      ∃ x y, toPoint? t = some (.affine x y) ∧ toPoint t = .affine x y ∧
        y * y = x * x * x + .ofNat 3 ∧ toPoint t ≠ 0 ∧ y ≠ 0 := by
  have hsq := exists_isSquare_candidates t
  refine ⟨mul_self_add_four_ne_zero t, hsq, ?_, ?_⟩
  · rintro ⟨h₁, h₂, h₃⟩
    rw [← Bool.not_eq_true, liftX_found_iff] at h₁ h₂ h₃
    exact h₃ ((hsq.resolve_left h₁).resolve_left h₂)
  · obtain ⟨x, y, h, hon⟩ := exists_toPoint?_eq t
    have hpoint : toPoint t = .affine x y := by
      rw [toPoint, h]
      rfl
    refine ⟨x, y, h, hpoint, hon, ?_, ?_⟩
    · rw [hpoint]
      exact nofun
    · -- A second coordinate zero would make `-3` a cube.
      rintro rfl
      rw [Point.OnCurve, mul_zero] at hon
      exact G1.ySquared_ne_zero x hon.symm

end CurveMap

end BlsBn254
