import BlsBn254.Proofs.Curve.Torsion

/-!
# The groups are cyclic of order `r`

The curve over the base field has exactly `r` points (`G1.card_eq`): the
generator has the order `r`, there are less than `3 r` points, and none of order
two, as `-3` is no cube. So all of its points are multiples of the generator.

The twist has more points, but their number is not divisible by the square of
`r` (`G2.not_order_mul_order_dvd_card`). Otherwise it would be that square, for the
same reasons as above, while there is a point that the square does not take to
infinity. So the points of the twist that `r` takes to infinity are the multiples
of the generator, too.

Both groups hence consist of the products of their generators by the scalars
(`G1.isValid_iff_smul`, `G2.isValid_iff_smul`).
-/

namespace BlsBn254

/-! ## The curve -/

namespace G1

theorem discriminant_ne_zero : (weierstrass curveConstant).Δ ≠ 0 := by
  rw [weierstrass_discriminant]
  decide +kernel

instance : (weierstrass curveConstant).IsElliptic := ⟨discriminant_ne_zero.isUnit⟩

/-- No point has the second coordinate zero, as `-3` is no cube. -/
theorem ySquared_ne_zero (x : Fp) : Point.ySquared curveConstant x ≠ 0 := by
  intro h
  have hcube : x * x * x = -curveConstant := eq_neg_of_add_eq_zero_left h
  have hpow := pow_third_of_cube (by rw [Fp.card_eq]; decide) (by decide) hcube
  rw [Fp.card_eq] at hpow
  exact absurd hpow (by decide +kernel)

/-- The generator as a point that `r` takes to infinity. -/
def base : Torsion curveConstant :=
  ⟨⟨generator, by decide⟩, PointOn.ext ((PointOn.point_nsmul r _).trans (by decide +kernel))⟩

@[simp]
theorem point_base : base.point = generator := rfl

theorem base_ne_zero : base ≠ 0 := mt (congrArg Torsion.point) (by decide)

/-- The curve has `r` points. -/
theorem card_eq : Nat.card (PointOn curveConstant) = r := by
  refine card_eq_of_dvd (fun P hP => P.eq_zero_of_two_nsmul_eq_zero ySquared_ne_zero hP) ?_ ?_
  · -- The order of the generator divides the number of points.
    rw [← Torsion.addOrderOf_eq base_ne_zero]
    exact addOrderOf_dvd_natCard _
  · refine PointOn.card_le.trans_lt ?_
    rw [Fp.card_eq]
    decide

theorem not_order_mul_order_dvd_card : ¬r * r ∣ Nat.card (PointOn curveConstant) := by
  rw [card_eq]
  decide

/-- The order takes every point of the curve to infinity. -/
theorem IsValid.order_smul {P : G1} (hP : P.IsValid) : r • P = .infinity := by
  have h : r • (⟨P, hP⟩ : PointOn curveConstant) = 0 := by
    rw [← card_eq]
    exact card_nsmul_eq_zero'
  exact (PointOn.point_nsmul r _).symm.trans (congrArg PointOn.point h)

theorem isValid_iff {P : G1} : P.IsValid ↔ ∃ x : Torsion curveConstant, x.point = P := by
  rw [Torsion.exists_point_eq_iff]
  exact ⟨fun h => ⟨h, h.order_smul⟩, fun h => h.1⟩

/-- The points of the group are the products of the generator by the scalars. -/
theorem isValid_iff_smul {P : G1} : P.IsValid ↔ ∃ k : Scalar, P = k • generator := by
  rw [isValid_iff, Torsion.exists_point_eq_iff_smul base_ne_zero not_order_mul_order_dvd_card]
  rfl

theorem isValid_zero : IsValid 0 := trivial

theorem isValid_point (x : Torsion curveConstant) : IsValid x.point := isValid_iff.2 ⟨x, rfl⟩

theorem point_smul_base (k : Scalar) : (k • base).point = k • generator := Torsion.point_smul k base

theorem isValid_smul_generator (k : Scalar) : IsValid (k • generator) :=
  isValid_iff_smul.2 ⟨k, rfl⟩

end G1

/-! ## The twist -/

namespace G2

theorem discriminant_ne_zero : (weierstrass twistConstant).Δ ≠ 0 := by
  rw [weierstrass_discriminant, pow_two]
  decide +kernel

instance : (weierstrass twistConstant).IsElliptic := ⟨discriminant_ne_zero.isUnit⟩

/-- No point has the second coordinate zero, as the opposite of the constant is no
    cube. -/
theorem ySquared_ne_zero (x : Fp2) : Point.ySquared twistConstant x ≠ 0 := by
  intro h
  have hcube : x * x * x = -twistConstant := eq_neg_of_add_eq_zero_left h
  have hpow := pow_third_of_cube (by rw [Fp2.card_eq]; decide) (by decide +kernel) hcube
  rw [Fp2.card_eq, ← power_eq_pow] at hpow
  exact absurd hpow (by decide +kernel)

/-- The generator as a point that `r` takes to infinity. -/
def base : Torsion twistConstant :=
  ⟨⟨generator, by decide +kernel⟩,
    PointOn.ext ((PointOn.point_nsmul r _).trans (by decide +kernel))⟩

@[simp]
theorem point_base : base.point = generator := rfl

theorem base_ne_zero : base ≠ 0 := mt (congrArg Torsion.point) (by decide)

/-- A point of the twist outside the group, with the first coordinate `u`. -/
def outsider : PointOn twistConstant :=
  ⟨.affine ⟨0, 1⟩
    ⟨.ofNat 5857410223677516958241855868975604786906559121396168184066542210254491971240,
      .ofNat 3499505209057624827709920819629410982529044040404494099368353913743455207650⟩,
    by decide +kernel⟩

theorem order_mul_order_nsmul_outsider : (r * r) • outsider ≠ 0 := by
  intro h
  have h' := (PointOn.point_nsmul (r * r) outsider).symm.trans (congrArg PointOn.point h)
  exact absurd h' (by decide +kernel)

/-- The square of `r` does not divide the number of points of the twist. -/
theorem not_order_mul_order_dvd_card : ¬r * r ∣ Nat.card (PointOn twistConstant) := by
  intro hdvd
  -- The points would be as many as the square, which would take them all to infinity.
  have hcard : Nat.card (PointOn twistConstant) = r * r := by
    refine card_eq_of_dvd (fun P hP => P.eq_zero_of_two_nsmul_eq_zero ySquared_ne_zero hP) hdvd ?_
    refine PointOn.card_le.trans_lt ?_
    rw [Fp2.card_eq]
    decide
  apply order_mul_order_nsmul_outsider
  rw [← hcard]
  exact card_nsmul_eq_zero'

theorem isValid_iff {P : G2} : P.IsValid ↔ ∃ x : Torsion twistConstant, x.point = P :=
  Torsion.exists_point_eq_iff.symm

/-- The points of the group are the products of the generator by the scalars. -/
theorem isValid_iff_smul {P : G2} : P.IsValid ↔ ∃ k : Scalar, P = k • generator := by
  rw [isValid_iff, Torsion.exists_point_eq_iff_smul base_ne_zero not_order_mul_order_dvd_card]
  rfl

theorem isValid_zero : IsValid 0 := ⟨trivial, rfl⟩

theorem isValid_point (x : Torsion twistConstant) : IsValid x.point := isValid_iff.2 ⟨x, rfl⟩

theorem point_smul_base (k : Scalar) : (k • base).point = k • generator := Torsion.point_smul k base

theorem isValid_smul_generator (k : Scalar) : IsValid (k • generator) :=
  isValid_iff_smul.2 ⟨k, rfl⟩

end G2

end BlsBn254
