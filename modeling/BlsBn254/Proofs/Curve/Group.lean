import BlsBn254.Proofs.Field.Quadratic

/-!
# The group of a curve

The chord-and-tangent law makes the points of a curve `y² = x³ + b` without
singular points a commutative group. The points on the curve (`PointOn`) are
identified with those of the curve in the general form of Weierstrass, where the
law is known to be a group law: `PointOn.toWeierstrass` is injective and keeps
the point at infinity, opposites and sums (`PointOn.toWeierstrass_add`). In
particular a sum of points of the curve lies on the curve (`Point.OnCurve.add`).
-/

namespace BlsBn254

variable {F : Type} [Field F]

/-! ## The equation -/

/-- The curve `y² = x³ + b` in the general form of Weierstrass. -/
def weierstrass (b : F) : WeierstrassCurve.Affine F := ⟨0, 0, 0, 0, b⟩

theorem weierstrass_discriminant (b : F) : (weierstrass b).Δ = -432 * b ^ 2 := by
  simp only [WeierstrassCurve.Δ, WeierstrassCurve.b₂, WeierstrassCurve.b₄, WeierstrassCurve.b₆,
    WeierstrassCurve.b₈, weierstrass]
  ring

theorem weierstrass_negY (b x y : F) : (weierstrass b).negY x y = -y := by
  simp only [WeierstrassCurve.Affine.negY, weierstrass]
  ring

theorem weierstrass_opposite_iff {b x₁ y₁ x₂ y₂ : F} :
    (x₁ = x₂ ∧ y₁ = (weierstrass b).negY x₂ y₂) ↔ (x₁ = x₂ ∧ y₁ + y₂ = 0) := by
  rw [weierstrass_negY, eq_neg_iff_add_eq_zero]

theorem weierstrass_equation_iff {b x y : F} :
    (weierstrass b).Equation x y ↔ (Point.affine x y).OnCurve b := by
  rw [WeierstrassCurve.Affine.equation_iff, Point.OnCurve, Point.ySquared]
  simp only [weierstrass]
  rw [show y ^ 2 + 0 * x * y + 0 * y = y * y by ring,
    show x ^ 3 + 0 * x ^ 2 + 0 * x + b = x * x * x + b by ring]

namespace Point.OnCurve

variable {b : F}

/-- A point lies on the curve together with its opposite. -/
theorem neg {P : Point F} (hP : P.OnCurve b) : (-P).OnCurve b := by
  cases P with
  | infinity => trivial
  | affine x y => exact (neg_mul_neg y y).trans hP

/-- Points of the curve with the same first coordinate agree or are opposite. -/
theorem eq_or_add_eq_zero {x y₁ y₂ : F} (h₁ : (affine x y₁).OnCurve b)
    (h₂ : (affine x y₂).OnCurve b) : y₁ = y₂ ∨ y₁ + y₂ = 0 := by
  -- The second coordinates have the same square.
  have hy : y₁ * y₁ = y₂ * y₂ := Eq.trans h₁ (Eq.symm h₂)
  have h : (y₁ - y₂) * (y₁ + y₂) = 0 := by
    linear_combination hy
  rcases mul_eq_zero.1 h with h | h
  · exact .inl (sub_eq_zero.1 h)
  · exact .inr h

end Point.OnCurve

/-! ## Points of one curve -/

/-- A point of the curve `y² = x³ + b`. -/
@[ext]
structure PointOn (b : F) where
  /-- The point. -/
  point : Point F
  /-- It lies on the curve. -/
  onCurve : point.OnCurve b

section Group

variable [DecidableEq F] {b : F}

/-- Lines have the same slope in either form of the curve. -/
theorem weierstrass_slope {x₁ y₁ x₂ y₂ : F} (h : ¬(x₁ = x₂ ∧ y₁ + y₂ = 0)) :
    (weierstrass b).slope x₁ x₂ y₁ y₂ = Point.slope x₁ y₁ x₂ y₂ := by
  rcases eq_or_ne x₁ x₂ with hx | hx
  · -- The tangent: the general form divides by the difference to the opposite.
    have hy : y₁ ≠ (weierstrass b).negY x₂ y₂ := by
      rw [weierstrass_negY]
      exact fun hy => h ⟨hx, by rw [hy, neg_add_cancel]⟩
    rw [WeierstrassCurve.Affine.slope_of_Y_ne hx hy, Point.slope, if_pos hx, weierstrass_negY,
      div_eq_mul_inv]
    simp only [weierstrass]
    rw [sub_neg_eq_add]
    ring
  · rw [WeierstrassCurve.Affine.slope_of_X_ne hx, Point.slope, if_neg hx, ← neg_sub y₂ y₁,
      ← neg_sub x₂ x₁, neg_div_neg_eq, div_eq_mul_inv]

/-- The coordinates of a sum of points that are not opposite, in the general form. -/
theorem affine_add_affine {x₁ y₁ x₂ y₂ : F} (h : ¬(x₁ = x₂ ∧ y₁ + y₂ = 0)) :
    Point.affine x₁ y₁ + Point.affine x₂ y₂ =
      .affine ((weierstrass b).addX x₁ x₂ ((weierstrass b).slope x₁ x₂ y₁ y₂))
        ((weierstrass b).addY x₁ x₂ y₁ ((weierstrass b).slope x₁ x₂ y₁ y₂)) := by
  have hsum : Point.affine x₁ y₁ + Point.affine x₂ y₂ =
      .affine (Point.slope x₁ y₁ x₂ y₂ * Point.slope x₁ y₁ x₂ y₂ - x₁ - x₂)
        (Point.slope x₁ y₁ x₂ y₂ *
          (x₁ - (Point.slope x₁ y₁ x₂ y₂ * Point.slope x₁ y₁ x₂ y₂ - x₁ - x₂)) - y₁) :=
    if_neg h
  have hx : ∀ l : F, (weierstrass b).addX x₁ x₂ l = l * l - x₁ - x₂ := by
    intro l
    simp only [WeierstrassCurve.Affine.addX, weierstrass]
    ring
  rw [hsum, weierstrass_slope h, WeierstrassCurve.Affine.addY, weierstrass_negY,
    WeierstrassCurve.Affine.negAddY, hx]
  congr 1
  ring

/-- A sum of points of the curve lies on the curve. -/
theorem Point.OnCurve.add {P Q : Point F} (hP : P.OnCurve b) (hQ : Q.OnCurve b) :
    (P + Q).OnCurve b := by
  cases P with
  | infinity => rwa [infinity_add]
  | affine x₁ y₁ =>
    cases Q with
    | infinity => rwa [add_infinity]
    | affine x₂ y₂ =>
      by_cases h : x₁ = x₂ ∧ y₁ + y₂ = 0
      · -- Opposite points add up to infinity, which is on every curve.
        rw [show affine x₁ y₁ + affine x₂ y₂ = infinity from if_pos h]
        trivial
      · rw [affine_add_affine h, ← weierstrass_equation_iff]
        exact WeierstrassCurve.Affine.equation_add (weierstrass_equation_iff.2 hP)
          (weierstrass_equation_iff.2 hQ) (mt weierstrass_opposite_iff.1 h)

namespace PointOn

instance : Zero (PointOn b) := ⟨⟨0, trivial⟩⟩

instance : Neg (PointOn b) := ⟨fun P => ⟨-P.point, P.onCurve.neg⟩⟩

instance : Add (PointOn b) := ⟨fun P Q => ⟨P.point + Q.point, P.onCurve.add Q.onCurve⟩⟩

omit [DecidableEq F] in
@[simp]
theorem point_zero : (0 : PointOn b).point = 0 := rfl

@[simp]
theorem point_add (P Q : PointOn b) : (P + Q).point = P.point + Q.point := rfl

variable [(weierstrass b).IsElliptic]

/-- The point in the general form. -/
def toWeierstrass : PointOn b → (weierstrass b).Point
  | ⟨.infinity, _⟩ => .zero
  | ⟨.affine x y, h⟩ => .some x y
      (WeierstrassCurve.Affine.equation_iff_nonsingular.1 (weierstrass_equation_iff.2 h))

omit [DecidableEq F] in
theorem toWeierstrass_injective : Function.Injective (toWeierstrass (b := b)) := by
  rintro ⟨_ | ⟨x₁, y₁⟩, h₁⟩ ⟨_ | ⟨x₂, y₂⟩, h₂⟩ h
  · rfl
  · exact absurd h.symm (WeierstrassCurve.Affine.Point.some_ne_zero _)
  · exact absurd h (WeierstrassCurve.Affine.Point.some_ne_zero _)
  · obtain ⟨rfl, rfl⟩ := WeierstrassCurve.Affine.Point.some.inj h
    rfl

omit [DecidableEq F] in
theorem toWeierstrass_zero : toWeierstrass (0 : PointOn b) = 0 := rfl

omit [DecidableEq F] in
theorem toWeierstrass_neg (P : PointOn b) : toWeierstrass (-P) = -toWeierstrass P := by
  rcases P with ⟨_ | ⟨x, y⟩, h⟩
  · rfl
  · simp only [toWeierstrass, WeierstrassCurve.Affine.Point.neg_some, weierstrass_negY]
    rfl

theorem toWeierstrass_add (P Q : PointOn b) :
    toWeierstrass (P + Q) = toWeierstrass P + toWeierstrass Q := by
  rcases P with ⟨_ | ⟨x₁, y₁⟩, h₁⟩
  · rw [show (⟨.infinity, h₁⟩ : PointOn b) = 0 from rfl, toWeierstrass_zero, zero_add]
    exact congrArg toWeierstrass (PointOn.ext (Point.infinity_add Q.point))
  rcases Q with ⟨_ | ⟨x₂, y₂⟩, h₂⟩
  · rfl
  by_cases h : x₁ = x₂ ∧ y₁ + y₂ = 0
  · have hsum : (⟨.affine x₁ y₁, h₁⟩ + ⟨.affine x₂ y₂, h₂⟩ : PointOn b) = 0 :=
      PointOn.ext (if_pos h)
    have hopp := (weierstrass_opposite_iff (b := b)).2 h
    rw [hsum, toWeierstrass_zero]
    exact (WeierstrassCurve.Affine.Point.add_of_Y_eq hopp.1 hopp.2).symm
  · have hsum : (⟨.affine x₁ y₁, h₁⟩ + ⟨.affine x₂ y₂, h₂⟩ : PointOn b) =
        ⟨_, affine_add_affine (b := b) h ▸ h₁.add h₂⟩ := PointOn.ext (affine_add_affine h)
    rw [hsum]
    exact (WeierstrassCurve.Affine.Point.add_some (mt weierstrass_opposite_iff.1 h)).symm

instance : AddCommGroup (PointOn b) where
  add_assoc P Q R := toWeierstrass_injective (by simp only [toWeierstrass_add, add_assoc])
  zero_add P := PointOn.ext (Point.infinity_add _)
  add_zero P := PointOn.ext (Point.add_infinity _)
  neg_add_cancel P := toWeierstrass_injective (by
    rw [toWeierstrass_add, toWeierstrass_neg, neg_add_cancel, toWeierstrass_zero])
  add_comm P Q := toWeierstrass_injective (by
    rw [toWeierstrass_add, toWeierstrass_add, add_comm])
  nsmul := nsmulRec
  zsmul := zsmulRec

end PointOn

end Group

end BlsBn254
