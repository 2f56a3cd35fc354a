import BlsBn254.Proofs.Curve.Coordinates
import BlsBn254.Proofs.Curve.Map

/-!
# The point of a field element

The encoding that the map to the curve computes is defined by fractions
(`CurveMap.fractions`). The first of them that lies under the curve is the first
coordinate of the point, and the second coordinate is the one that is a square if
the element is, and no square otherwise (`CurveMap.IsImage`). There is such a point
for every element, and no second one (`CurveMap.IsImage.unique`).

The map shares one inverse among the fractions, which at zero is zero, and chooses
between the two second coordinates by a sign. It takes every element to the point of
its encoding (`CurveMap.toPoint_eq_iff_isImage`), because the root that it finds of a
square is a square itself (`Fp.isSquare_sqrt`), and the opposite of that root is not
(`Fp.isSquare_neg_iff`).

The fractions are the same for opposite elements, of which one is a square and the
other is not, so these have opposite points (`CurveMap.IsImage.neg`).
-/

namespace BlsBn254

namespace CurveMap

/-! ## The definition of the encoding -/

/-- The fractions for `t`, in order, where `s` is a square root of `-3`. The last of
    them has the value one at zero. -/
def fractions (s t : Fp) : List Fp :=
  let x₁ := (s - 1) / 2 - s * t ^ 2 / (t ^ 2 + 4)
  [x₁, -1 - x₁, if t = 0 then 1 else 1 - (t ^ 2 + 4) ^ 2 / (3 * t ^ 2)]

/-- Opposite elements have the same fractions. -/
theorem fractions_neg (s t : Fp) : fractions s (-t) = fractions s t := by
  simp only [fractions, neg_sq, neg_eq_zero]

/-- The point belongs to `t`: its first coordinate is the first of the fractions that
    lies under the curve, and its second coordinate is a square if and only if `t` is. -/
def IsImage (s t : Fp) (P : G1) : Prop :=
  ∃ x y, (fractions s t).find? (fun x => IsSquare (x ^ 3 + 3)) = some x ∧
    y ^ 2 = x ^ 3 + 3 ∧ (IsSquare y ↔ IsSquare t) ∧ P = .affine x y

theorem ySquared_eq (x : Fp) : Point.ySquared G1.curveConstant x = x ^ 3 + 3 := by
  rw [Point.ySquared, G1.curveConstant_eq, pow_succ, pow_two]

/-- No point of the curve has the second coordinate zero. -/
theorem ne_zero_of_sq_eq {x y : Fp} (h : y ^ 2 = x ^ 3 + 3) : y ≠ 0 := by
  rintro rfl
  rw [zero_pow two_ne_zero, ← ySquared_eq] at h
  exact G1.ySquared_ne_zero x h.symm

namespace IsImage

variable {s t : Fp} {P Q : G1}

/-- Only one point belongs to an element. -/
theorem unique (hP : IsImage s t P) (hQ : IsImage s t Q) : P = Q := by
  obtain ⟨x, y, hx, hy, hsq, rfl⟩ := hP
  obtain ⟨x', y', hx', hy', hsq', rfl⟩ := hQ
  obtain rfl : x = x' := Option.some.inj (hx.symm.trans hx')
  obtain rfl : y = y' := Fp.eq_of_sq_eq (hy.trans hy'.symm) (hsq.trans hsq'.symm)
  rfl

/-- The opposite point belongs to the opposite element. -/
theorem neg (ht : t ≠ 0) (hP : IsImage s t P) : IsImage s (-t) (-P) := by
  obtain ⟨x, y, hx, hy, hsq, rfl⟩ := hP
  refine ⟨x, -y, ?_, ?_, ?_, rfl⟩
  · rw [fractions_neg, hx]
  · rw [neg_sq, hy]
  · rw [Fp.isSquare_neg_iff (ne_zero_of_sq_eq hy), Fp.isSquare_neg_iff ht, hsq]

end IsImage

/-! ## The candidates as fractions -/

theorem rootOfUnity_eq : rootOfUnity = (rootMinusThree - 1) / 2 := by
  rw [eq_div_iff (by decide : (2 : Fp) ≠ 0)]
  linear_combination two_mul_rootOfUnity_add_one

/-- The third candidate is the third fraction. -/
theorem third_fraction_eq {t : Fp} (ht : t ≠ 0) :
    (t ^ 2 + 4) / (t * rootMinusThree) * ((t ^ 2 + 4) / (t * rootMinusThree)) + 1 =
      1 - (t ^ 2 + 4) ^ 2 / (3 * t ^ 2) := by
  have h₃ : (3 : Fp) ≠ 0 := by decide
  have hneg : (-3 : Fp) ≠ 0 := by decide
  rw [div_mul_div_comm, mul_mul_mul_comm, rootMinusThree_mul_self, ← pow_two, ← pow_two]
  field_simp
  ring

/-- The candidates are the fractions, zero included. -/
theorem fractions_rootMinusThree (t : Fp) :
    fractions rootMinusThree t = [(candidates t).1, (candidates t).2.1, (candidates t).2.2] := by
  rw [fractions, ← rootOfUnity_eq]
  rcases eq_or_ne t 0 with rfl | ht
  · -- The first fraction is its constant term.
    have hzero : rootMinusThree * 0 ^ 2 / (0 ^ 2 + 4) = 0 := by
      rw [zero_pow two_ne_zero, mul_zero, zero_div]
    rw [candidates_zero, if_pos rfl, hzero, sub_zero, neg_add_rev, ← sub_eq_add_neg]
  · rw [candidates_of_ne_zero ht, if_neg ht, third_fraction_eq ht, neg_add_rev, ← sub_eq_add_neg]

/-! ## The choice -/

/-- The candidate that is chosen is the first that lies under the curve. -/
theorem choose_eq (x₁ x₂ x₃ : Fp) :
    choose (x₁, x₂, x₃) =
      ([x₁, x₂, x₃].find? fun x => (liftX x).2).map fun x => (x, (liftX x).1) := by
  by_cases h₁ : (liftX x₁).2
  · simp [choose, h₁]
  by_cases h₂ : (liftX x₂).2
  · simp [choose, h₁, h₂]
  by_cases h₃ : (liftX x₃).2
  · simp [choose, h₁, h₂, h₃]
  · simp [choose, h₁, h₂, h₃]

theorem liftX_found_eq (x : Fp) : (liftX x).2 = decide (IsSquare (x ^ 3 + 3)) := by
  rw [Bool.eq_iff_iff, liftX_found_iff, decide_eq_true_iff, ySquared_eq]

/-- The image is the point over the first fraction that lies under the curve. -/
theorem toPoint?_eq (t : Fp) :
    toPoint? t = ((fractions rootMinusThree t).find? fun x => IsSquare (x ^ 3 + 3)).map fun x =>
      .affine x (if IsSquare t then (liftX x).1 else -(liftX x).1) := by
  have hsign : ∀ y : Fp, (if (Fp.sqrt t).2 then y else -y) = if IsSquare t then y else -y :=
    fun y => if_congr (Fp.sqrt_found_iff t) rfl rfl
  have hchoose := choose_eq (candidates t).1 (candidates t).2.1 (candidates t).2.2
  simp only [← fractions_rootMinusThree, liftX_found_eq] at hchoose
  simp only [toPoint?, hchoose, Option.map_map, hsign]
  rfl

/-- The image belongs to the element. -/
theorem isImage_of_toPoint? {t : Fp} {P : G1} (h : toPoint? t = some P) :
    IsImage rootMinusThree t P := by
  rw [toPoint?_eq] at h
  obtain ⟨x, hx, rfl⟩ := Option.map_eq_some_iff.1 h
  have hsq : IsSquare (x ^ 3 + 3) := by simpa only [decide_eq_true_eq] using List.find?_some hx
  -- What is found over `x` is a square, and a square root of a value other than zero.
  have hroot : (liftX x).1 ^ 2 = x ^ 3 + 3 := by
    rw [pow_two, ← ySquared_eq]
    exact Fp.sqrt_mul_self (ySquared_eq x ▸ hsq)
  have hyes : IsSquare (liftX x).1 := Fp.isSquare_sqrt (ySquared_eq x ▸ hsq)
  by_cases ht : IsSquare t
  · exact ⟨x, _, hx, hroot, iff_of_true hyes ht, by rw [if_pos ht]⟩
  · have hno : ¬IsSquare (-(liftX x).1) := fun hneg =>
      (Fp.isSquare_neg_iff (ne_zero_of_sq_eq hroot)).1 hneg hyes
    exact ⟨x, _, hx, by rw [neg_sq, hroot], iff_of_false hno ht, by rw [if_neg ht]⟩

/-- Every element has its image. -/
theorem toPoint?_eq_some (t : Fp) : toPoint? t = some (toPoint t) := by
  obtain ⟨x, y, h, -⟩ := exists_toPoint?_eq t
  rw [toPoint, h]
  rfl

/-- The map takes every element to the point of its encoding. Its constants are a square
    root of `-3` and half of that root less one. Elements other than zero that are
    opposite are taken to opposite points. -/
theorem toPoint_eq_iff_isImage (t : Fp) :
    rootMinusThree ^ 2 = -3 ∧ rootOfUnity = (rootMinusThree - 1) / 2 ∧
      (∀ P, (toPoint? t = some P ↔ IsImage rootMinusThree t P) ∧
        (toPoint t = P ↔ IsImage rootMinusThree t P)) ∧
      (t ≠ 0 → toPoint (-t) = -toPoint t) := by
  have himage : ∀ t, IsImage rootMinusThree t (toPoint t) := fun t =>
    isImage_of_toPoint? (toPoint?_eq_some t)
  have hpoint : ∀ P, toPoint t = P ↔ IsImage rootMinusThree t P := fun P =>
    ⟨fun h => h ▸ himage t, fun h => (himage t).unique h⟩
  refine ⟨(pow_two _).trans rootMinusThree_mul_self, rootOfUnity_eq, fun P => ⟨?_, hpoint P⟩,
    fun ht => (himage (-t)).unique ((himage t).neg ht)⟩
  rw [toPoint?_eq_some, Option.some.injEq]
  exact hpoint P

/-- The point of zero lies over a third root of unity, and that of `-1` is opposite to
    the point of one. -/
theorem isImage_zero_one :
    IsImage rootMinusThree 0 (.affine rootOfUnity 2) ∧ (1 : Fp) ≠ 0 ∧
      toPoint (-1) = -toPoint 1 := by
  have hzero : toPoint 0 = .affine rootOfUnity 2 := by decide +kernel
  have hone : (1 : Fp) ≠ 0 := one_ne_zero
  obtain ⟨-, -, himage, -⟩ := toPoint_eq_iff_isImage 0
  obtain ⟨-, -, -, hopposite⟩ := toPoint_eq_iff_isImage 1
  exact ⟨(himage _).2.1 hzero, hone, hopposite hone⟩

end CurveMap

end BlsBn254
