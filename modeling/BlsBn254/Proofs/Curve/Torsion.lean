import BlsBn254.Proofs.Curve.Count

/-!
# Points that the order takes to infinity

A scalar multiplies a point by its least representative. That is an action of
the field of scalars on the points that `r` takes to infinity (`Torsion`): they
are a vector space over it, and the laws of a vector space are those that keys
and signatures rely on. It has dimension one if the square of `r` does not
divide the number of points (`exists_smul_eq`): every point is then the product
of any other by a scalar.
-/

namespace BlsBn254

variable {F : Type} [Field F] [DecidableEq F] {b : F} [(weierstrass b).IsElliptic]

variable (b) in
/-- A point of the curve that `r` takes to infinity. -/
def Torsion : Type := (nsmulAddMonoidHom r : PointOn b →+ PointOn b).ker

instance : AddCommGroup (Torsion b) :=
  inferInstanceAs (AddCommGroup (nsmulAddMonoidHom r : PointOn b →+ PointOn b).ker)

namespace Torsion

/-- The order takes every point to infinity. -/
theorem order_nsmul (x : Torsion b) : r • x = 0 := Subtype.ext x.2

/-- A multiple depends on the class of the number modulo `r` alone. -/
theorem mod_nsmul (n : ℕ) (x : Torsion b) : (n % r) • x = n • x :=
  (nsmul_eq_mod_nsmul n (order_nsmul x)).symm

instance : SMul Scalar (Torsion b) := ⟨fun k x => k.val • x⟩

theorem smul_def (k : Scalar) (x : Torsion b) : k • x = k.val • x := rfl

instance : Module Scalar (Torsion b) where
  one_smul x := by rw [smul_def, Residue.val_one, mod_nsmul, one_nsmul]
  mul_smul k l x := by rw [smul_def, Residue.val_mul, mod_nsmul, mul_nsmul']; rfl
  smul_zero k := nsmul_zero k.val
  smul_add k x y := nsmul_add x y k.val
  add_smul k l x := by rw [smul_def, Residue.val_add, mod_nsmul, add_nsmul]; rfl
  zero_smul x := by rw [smul_def, Residue.val_zero, zero_nsmul]

/-- The coordinates of a point. -/
def point (x : Torsion b) : Point F := x.1.point

theorem point_injective : Function.Injective (point (b := b)) :=
  fun _ _ h => Subtype.ext (PointOn.ext h)

theorem onCurve (x : Torsion b) : x.point.OnCurve b := x.1.onCurve

@[simp]
theorem point_zero : (0 : Torsion b).point = 0 := rfl

@[simp]
theorem point_neg (x : Torsion b) : (-x).point = -x.point := rfl

@[simp]
theorem point_add (x y : Torsion b) : (x + y).point = x.point + y.point := rfl

@[simp]
theorem point_smul (k : Scalar) (x : Torsion b) : (k • x).point = k • x.point :=
  PointOn.point_nsmul k.val x.1

theorem point_eq_zero_iff {x : Torsion b} : x.point = 0 ↔ x = 0 := point_injective.eq_iff' rfl

/-- The points of the curve that `r` takes to infinity are those of the vector
    space. -/
theorem exists_point_eq_iff {P : Point F} :
    (∃ x : Torsion b, x.point = P) ↔ P.OnCurve b ∧ r • P = .infinity := by
  constructor
  · rintro ⟨x, rfl⟩
    exact ⟨x.onCurve, (PointOn.point_nsmul r x.1).symm.trans (congrArg PointOn.point x.2)⟩
  · rintro ⟨hP, hr⟩
    exact ⟨⟨⟨P, hP⟩, PointOn.ext ((PointOn.point_nsmul r _).trans hr)⟩, rfl⟩

/-- As `r` is prime, it is the order of every point other than infinity. -/
theorem addOrderOf_eq {x : Torsion b} (hx : x ≠ 0) : addOrderOf x.1 = r :=
  addOrderOf_eq_prime x.2 fun h => hx (Subtype.ext h)

/-- Every point is the product of any other by a scalar. -/
theorem exists_smul_eq {g : Torsion b} (hg : g ≠ 0) (hsq : ¬r * r ∣ Nat.card (PointOn b))
    (x : Torsion b) : ∃ k : Scalar, k • g = x := by
  -- A multiple of the point by an integer is its product by the class of that.
  obtain ⟨n, hn⟩ := mem_zmultiples_of_nsmul_eq_zero prime_order (addOrderOf_eq hg) x.2 hsq
  refine ⟨n, Subtype.ext ?_⟩
  rw [Int.cast_smul_eq_zsmul]
  exact hn

/-- So the points that `r` takes to infinity are the products of one of them by
    the scalars. -/
theorem exists_point_eq_iff_smul {g : Torsion b} (hg : g ≠ 0)
    (hsq : ¬r * r ∣ Nat.card (PointOn b)) {P : Point F} :
    (∃ x : Torsion b, x.point = P) ↔ ∃ k : Scalar, P = k • g.point := by
  constructor
  · rintro ⟨x, rfl⟩
    obtain ⟨k, rfl⟩ := exists_smul_eq hg hsq x
    exact ⟨k, point_smul k g⟩
  · rintro ⟨k, rfl⟩
    exact ⟨k • g, point_smul k g⟩

/-! ## Products by scalars -/

theorem zero_smul_point (x : Torsion b) : (0 : Scalar) • x.point = 0 := by
  rw [← point_smul, zero_smul, point_zero]

theorem one_smul_point (x : Torsion b) : (1 : Scalar) • x.point = x.point := by
  rw [← point_smul, one_smul]

theorem add_smul_point (k l : Scalar) (x : Torsion b) :
    (k + l) • x.point = k • x.point + l • x.point := by
  rw [← point_smul, add_smul, point_add, point_smul, point_smul]

theorem neg_smul_point (k : Scalar) (x : Torsion b) : -k • x.point = -(k • x.point) := by
  rw [← point_smul, neg_smul, point_neg, point_smul]

theorem mul_smul_point (k l : Scalar) (x : Torsion b) : (k * l) • x.point = k • l • x.point := by
  rw [← point_smul, mul_smul, point_smul, point_smul]

theorem smul_point_injective {x : Torsion b} (hx : x ≠ 0) :
    Function.Injective fun k : Scalar => k • x.point := by
  intro k l h
  exact smul_left_injective Scalar hx
    (point_injective ((point_smul k x).trans (h.trans (point_smul l x).symm)))

/-- The discrete logarithm to the base of a point: the scalar whose product with it is
    the given point, if there is one. -/
noncomputable def log (x : Torsion b) : Point F → Scalar :=
  Function.invFun fun k : Scalar => k • x.point

section Log

variable {x : Torsion b} (hx : x ≠ 0)

include hx

theorem log_smul_point (k : Scalar) : x.log (k • x.point) = k :=
  Function.leftInverse_invFun (smul_point_injective hx) k

theorem log_zero : x.log 0 = 0 := by
  rw [← zero_smul_point x, log_smul_point hx]

theorem log_point : x.log x.point = 1 := by
  conv_lhs => rw [← one_smul_point x]
  exact log_smul_point hx 1

/-- A discrete logarithm is additive. -/
theorem log_add {P Q : Point F} (hP : ∃ k : Scalar, P = k • x.point)
    (hQ : ∃ k : Scalar, Q = k • x.point) : x.log (P + Q) = x.log P + x.log Q := by
  obtain ⟨k, rfl⟩ := hP
  obtain ⟨l, rfl⟩ := hQ
  rw [← add_smul_point, log_smul_point hx, log_smul_point hx, log_smul_point hx]

end Log

end Torsion

end BlsBn254
