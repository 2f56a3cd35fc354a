import BlsBn254.Proofs.Curve.Group

/-!
# Multiples in the group of a curve

The multiple of a point that the binary method computes in Jacobian coordinates
is the sum of as many copies of the point (`PointOn.point_nsmul`). Doubling and
adding of coordinates stand for the chord-and-tangent law on the points they
belong to (`Jacobian.toPoint_double`, `Jacobian.toPoint_addAffine`), with all
their exceptions: the tangent is vertical where the second coordinate is zero,
and the chord where the points are opposite.
-/

namespace BlsBn254

variable {F : Type} [Field F] {b : F}

/-- On a curve without singular points two is not zero. -/
theorem two_ne_zero_of_isElliptic [h : (weierstrass b).IsElliptic] : (2 : F) ≠ 0 := by
  intro h₂
  apply h.isUnit.ne_zero
  rw [weierstrass_discriminant]
  linear_combination -216 * b ^ 2 * h₂

namespace Jacobian

theorem double_z (P : Jacobian F) : P.double.z = P.y * P.z + P.y * P.z := rfl

variable [DecidableEq F]

theorem toPoint_of_eq_zero {P : Jacobian F} (hz : P.z = 0) : P.toPoint = .infinity := if_pos hz

theorem toPoint_of_ne_zero {P : Jacobian F} (hz : P.z ≠ 0) :
    P.toPoint = .affine (P.x / P.z ^ 2) (P.y / P.z ^ 3) := by
  rw [toPoint, if_neg hz]
  field_simp

/-- The double of coordinates belongs to the double of the point. -/
theorem toPoint_double (h₂ : (2 : F) ≠ 0) (P : Jacobian F) :
    P.double.toPoint = P.toPoint + P.toPoint := by
  rcases eq_or_ne P.z 0 with hz | hz
  · rw [toPoint_of_eq_zero hz, toPoint_of_eq_zero (by rw [double_z, hz, mul_zero, add_zero])]
    rfl
  rw [toPoint_of_ne_zero hz]
  rcases eq_or_ne P.y 0 with hy | hy
  · -- The tangent is vertical.
    rw [toPoint_of_eq_zero (by rw [double_z, hy, zero_mul, add_zero])]
    exact (if_pos ⟨rfl, by rw [hy, zero_div, add_zero]⟩).symm
  · -- The tangent meets the curve in a third point.
    have hz' : P.double.z ≠ 0 := by
      rw [double_z, ← two_mul]
      exact mul_ne_zero h₂ (mul_ne_zero hy hz)
    have hne : ¬(P.x / P.z ^ 2 = P.x / P.z ^ 2 ∧ P.y / P.z ^ 3 + P.y / P.z ^ 3 = 0) := by
      rintro ⟨-, h⟩
      rw [← two_mul] at h
      exact mul_ne_zero h₂ (div_ne_zero hy (pow_ne_zero 3 hz)) h
    rw [toPoint_of_ne_zero hz', show Point.affine (P.x / P.z ^ 2) (P.y / P.z ^ 3) + .affine _ _ = _
      from if_neg hne]
    simp only [Point.slope, if_true, double, ← two_mul]
    congr 1
    · field_simp
      ring
    · field_simp
      ring

/-- The sum of coordinates and a point belongs to the sum of the points. -/
theorem toPoint_addAffine (h₂ : (2 : F) ≠ 0) {x y : F} (hQ : (Point.affine x y).OnCurve b)
    {P : Jacobian F} (hP : P.toPoint.OnCurve b) :
    (P.addAffine x y).toPoint = P.toPoint + .affine x y := by
  rcases eq_or_ne P.z 0 with hz | hz
  · rw [addAffine, if_pos hz, toPoint_of_eq_zero hz, toPoint_of_ne_zero one_ne_zero, one_pow,
      one_pow, div_one, div_one]
    rfl
  rw [addAffine, if_neg hz]
  have hPz := toPoint_of_ne_zero hz
  have hx : x * (P.z * P.z) - P.x = 0 ↔ P.x / P.z ^ 2 = x := by
    rw [div_eq_iff (pow_ne_zero 2 hz), sub_eq_zero, ← pow_two, eq_comm]
  have hy : y * (P.z * P.z * P.z) - P.y = 0 ↔ P.y / P.z ^ 3 = y := by
    rw [div_eq_iff (pow_ne_zero 3 hz), sub_eq_zero, ← pow_two, ← pow_succ, eq_comm]
  rcases eq_or_ne (x * (P.z * P.z) - P.x) 0 with h | h
  · rw [if_pos h]
    rw [hx.1 h] at hPz
    rw [hPz] at hP ⊢
    rcases eq_or_ne (y * (P.z * P.z * P.z) - P.y) 0 with k | k
    · -- The points agree.
      rw [if_pos k, toPoint_double h₂, hPz, hy.1 k]
    · -- The points are opposite, as the coordinates belong to a point of the curve.
      rw [if_neg k, toPoint_of_eq_zero rfl]
      exact (if_pos ⟨rfl, (hP.eq_or_add_eq_zero hQ).resolve_left (mt hy.2 k)⟩).symm
  · -- The chord meets the curve in a third point.
    have hd : P.z ^ 2 * x - P.x ≠ 0 := by
      rwa [pow_two, mul_comm]
    rw [if_neg h, hPz, show Point.affine (P.x / P.z ^ 2) (P.y / P.z ^ 3) + .affine x y = _ from
      if_neg fun hne => h (hx.2 hne.1), Point.slope, if_neg (mt hx.2 h), toPoint_of_ne_zero]
    · congr 1
      · field_simp
        ring
      · field_simp
        ring
    · exact mul_ne_zero hz h

end Jacobian

namespace PointOn

variable [DecidableEq F] [(weierstrass b).IsElliptic]

/-- The multiple of a point of the curve is the sum of as many copies. -/
theorem point_nsmul (n : ℕ) (P : PointOn b) : (n • P).point = n • P.point := by
  have h₂ : (2 : F) ≠ 0 := two_ne_zero_of_isElliptic (b := b)
  rcases P with ⟨_ | ⟨x, y⟩, hP⟩
  · rw [show (⟨.infinity, hP⟩ : PointOn b) = 0 from rfl, nsmul_zero]
    rfl
  · -- The coordinates reached at `k` belong to the sum of `k` copies.
    refine (binaryMethod_rel
      (R := fun k (J : Jacobian F) => J.toPoint = (k • (⟨.affine x y, hP⟩ : PointOn b)).point)
      ?_ ?_ ?_ n).symm
    · rw [zero_nsmul]
      exact Jacobian.toPoint_of_eq_zero rfl
    · intro k J hJ
      rw [Jacobian.toPoint_double h₂, hJ, two_mul, add_nsmul, point_add]
    · intro k J hJ
      rw [Jacobian.toPoint_addAffine h₂ hP (hJ ▸ PointOn.onCurve _), hJ, succ_nsmul, point_add]

end PointOn

end BlsBn254
