import BlsBn254.Proofs.Curve.Subgroup
import BlsBn254.Proofs.Field.Inverse
import BlsBn254.Proofs.Runs.Aggregation

/-!
# Scaling by a scalar and by its inverse

Scalars are inverted modulo `r`, but points are multiplied by numbers. The product of a scalar
and its inverse is, as a number, one more than a multiple of `r`; so scaling by both leads
back to a point if `r` takes it to infinity, as it does with all points that runs reach
(`scaling_undone`). The coordinates of the point may be others than before, but not its
encoding, in whatever way coordinates are multiplied (`Jacobian.Multiplies`).

At no other points of the twist is all scaling undone. Two and its inverse show that: as
numbers they have the product `r + 1` (`PointOn.smul_smul_eq_iff`).
-/

namespace BlsBn254

/-! ## Undoing -/

/-- Scaling `a` by `s` and then by `t` leads to what is the `same` as `a`, and so does scaling
    by `t` and then by `s`. -/
def Undone {α : Type} (mul : α → Scalar → α) (same : α → α → Prop) (s t : Scalar) (a : α) :
    Prop :=
  same (mul (mul a s) t) a ∧ same (mul (mul a t) s) a

/-- As the product of two scalars does not depend on their order, one order of scaling is
    enough. -/
theorem undone_of_mul_eq_one {α : Type} {mul : α → Scalar → α} {same : α → α → Prop} {a : α}
    (h : ∀ s t, s * t = 1 → same (mul (mul a s) t) a) {s t : Scalar} (hst : s * t = 1) :
    Undone mul same s t a :=
  ⟨h s t hst, h t s ((mul_comm t s).trans hst)⟩

/-! ## Elements of every kind -/

namespace Kind

/-- The elements are equal, and so are their encodings. -/
def Alike (κ : Kind) (a b : κ.Element) : Prop :=
  a = b ∧ (format : Format κ.Element).encode a = (format : Format κ.Element).encode b

/-- A valid element is the product of the generator by a scalar, for which scaling is a
    product of scalars. -/
theorem mul_mul_of_mul_eq_one {κ : Kind} {a : κ.Element} (ha : κ.Valid a) {s t : Scalar}
    (hst : s * t = 1) : κ.mul (κ.mul a s) t = a := by
  obtain ⟨k, rfl⟩ := valid_iff_mul.1 ha
  rw [mul_mul_one, mul_mul_one, ← mul_assoc, mul_comm t s, hst, one_mul]

theorem undone {κ : Kind} {a : κ.Element} (ha : κ.Valid a) {s t : Scalar} (hst : s * t = 1) :
    Undone κ.mul κ.Alike s t a := by
  refine undone_of_mul_eq_one (fun s t hst => ?_) hst
  have hback : κ.mul (κ.mul a s) t = a := mul_mul_of_mul_eq_one ha hst
  exact ⟨hback, congrArg _ hback⟩

end Kind

/-! ## Points by their coordinates -/

section Coordinates

variable {F : Type} [Field F] [DecidableEq F] {b : F} [(weierstrass b).IsElliptic]

namespace Jacobian

/-- The multiplication of coordinates computes, at valid points, the sum of as many copies of
    the point as the scalar is a number. -/
def Multiplies (Valid : Point F → Prop) (mul : Jacobian F → Scalar → Jacobian F) : Prop :=
  ∀ J k, Valid J.toPoint → (mul J k).toPoint = nsmulRec k.val J.toPoint

/-- The product of coordinates by a scalar, without the division that finds the point. -/
def mul (J : Jacobian F) (k : Scalar) : Jacobian F :=
  match J.toPoint with
  | .infinity => infinity
  | .affine x y => binaryMethod double (addAffine x y) infinity k.val

theorem toPoint_mul (J : Jacobian F) (k : Scalar) : (J.mul k).toPoint = k • J.toPoint := by
  rw [mul]
  cases J.toPoint with
  | infinity => exact toPoint_of_eq_zero rfl
  | affine x y => rfl

theorem multiplies_mul : Multiplies (Point.OnCurve b) mul := by
  intro J k hJ
  rw [toPoint_mul]
  exact ((PointOn.nsmulRec_point k.val ⟨_, hJ⟩).trans (PointOn.point_nsmul _ _)).symm

/-- The coordinates belong to the same point, and the points have the same encoding. -/
def Alike [Formatted (Point F)] (J K : Jacobian F) : Prop :=
  J.SamePoint K ∧
    (format : Format (Point F)).encode J.toPoint = (format : Format (Point F)).encode K.toPoint

namespace Multiplies

variable {Valid : Point F → Prop} {mul : Jacobian F → Scalar → Jacobian F} {J : Jacobian F}

/-- The product belongs to the product of the point, as an element of the vector space. -/
theorem toPoint_mul (hmul : Multiplies Valid mul) (hJ : Valid J.toPoint) {x : Torsion b}
    (hx : J.toPoint = x.point) (k : Scalar) : (mul J k).toPoint = (k • x).point := by
  rw [hmul J k hJ, hx, Torsion.nsmulRec_point, Torsion.smul_def]

theorem undone [Formatted (Point F)] (hmul : Multiplies Valid mul)
    (hvalid : ∀ P, Valid P ↔ ∃ x : Torsion b, x.point = P) (hJ : Valid J.toPoint)
    {s t : Scalar} (hst : s * t = 1) : Undone mul Alike s t J := by
  refine undone_of_mul_eq_one (fun s t hst => ?_) hst
  obtain ⟨x, hx⟩ := (hvalid _).1 hJ
  have hs : (mul J s).toPoint = (s • x).point := hmul.toPoint_mul hJ hx.symm s
  have hback : (mul (mul J s) t).toPoint = J.toPoint := by
    rw [hmul.toPoint_mul ((hvalid _).2 ⟨s • x, hs.symm⟩) hs, smul_smul, mul_comm, hst, one_smul, hx]
  exact ⟨toPoint_eq_toPoint_iff.1 hback, congrArg _ hback⟩

end Multiplies

end Jacobian

/-- If the numbers have the product `r + 1`, then scaling by both leads back from the points
    that `r` takes to infinity, and from no others. -/
theorem PointOn.smul_smul_eq_iff {k l : Scalar} (hkl : k.val * l.val = r + 1) (P : PointOn b) :
    k • l • P.point = P.point ↔ r • P.point = .infinity := by
  have hmul : k • l • P.point = ((r + 1) • P).point := by
    rw [← hkl, mul_nsmul', point_nsmul, point_nsmul]
    rfl
  rw [hmul, ← PointOn.ext_iff, succ_nsmul, add_eq_right, PointOn.ext_iff, point_nsmul]
  rfl

end Coordinates

/-- A point of the twist at which all scaling is undone belongs to the group. -/
theorem G2.isValid_of_undone {Q : G2} (hQ : Q.OnCurve twistConstant)
    (h : ∀ s t : Scalar, s.inverse = some t → t • s • Q = Q) : Q.IsValid := by
  have hhalf : (2 : Scalar).inverse = some (.ofNat ((r + 1) / 2)) :=
    Scalar.inverse_eq_some_iff.2 (by decide)
  exact ⟨hQ, (PointOn.smul_smul_eq_iff (by decide) ⟨Q, hQ⟩).1 (h _ _ hhalf)⟩

/-! ## What runs reach -/

/-- Zero is the only scalar without an inverse. Scaling by any other and by its inverse, in
    either order, leads back to every element that runs reach, with the same encoding; and so
    it does for points in whatever coordinates, if multiplying these adds up as many copies of
    the point as the scalar is a number. Of the points of the twist, those that runs reach are
    precisely those to which it leads back. -/
theorem scaling_undone :
    (∀ s : Scalar, s.inverse = none ↔ s = 0) ∧
      (∀ s : Scalar, s ≠ 0 → ∃ t, s.inverse = some t ∧
        (∀ (κ : Kind) (a : κ.Element), Reachable (.bare κ) a → Undone κ.mul κ.Alike s t a) ∧
        (∀ mul, Jacobian.Multiplies G1.IsValid mul → ∀ J : Jacobian Fp,
          Reachable (.bare .point₁) J.toPoint → Undone mul Jacobian.Alike s t J) ∧
        ∀ mul, Jacobian.Multiplies G2.IsValid mul → ∀ J : Jacobian Fp2,
          Reachable (.bare .point₂) J.toPoint → Undone mul Jacobian.Alike s t J) ∧
      ∀ Q : G2, Q.OnCurve G2.twistConstant →
        (Reachable (.bare .point₂) Q ↔ ∀ s t : Scalar, s.inverse = some t →
          Undone (Kind.mul .point₂) (Kind.Alike .point₂) s t Q) := by
  refine ⟨fun s => Scalar.inverse_eq_none_iff, fun s hs => ?_, fun Q hQ => ⟨fun h s t hst => ?_,
    fun h => ?_⟩⟩
  · obtain ⟨t, ht⟩ := Option.ne_none_iff_exists'.1 (mt Scalar.inverse_eq_none_iff.1 hs)
    have hst := Scalar.inverse_eq_some_iff.1 ht
    exact ⟨t, ht, fun κ a ha => Kind.undone ha.valid hst,
      fun mul hmul J hJ => hmul.undone (fun _ => G1.isValid_iff) hJ.valid hst,
      fun mul hmul J hJ => hmul.undone (fun _ => G2.isValid_iff) hJ.valid hst⟩
  · exact Kind.undone (κ := .point₂) h.valid (Scalar.inverse_eq_some_iff.1 hst)
  · exact reachable_iff.2 (G2.isValid_of_undone hQ fun s t hst => (h s t hst).1.1)

/-- Scaling by two is undone at five, at both generators and at coordinates of them of another
    scale; but not all scaling is undone at a point of the twist outside the group. -/
theorem scaling_undone_two :
    let P := G1.generator
    let Q := G2.generator
    let J : Jacobian Fp := ⟨4, 16, 2⟩
    let K : Jacobian Fp2 := (Jacobian.ofPoint Q).double
    let R := G2.outsider.point
    (2 : Scalar) ≠ 0 ∧ Reachable (.bare .scalar) (5 : Scalar) ∧ Reachable (.bare .point₁) P ∧
      Reachable (.bare .point₂) Q ∧ Jacobian.Multiplies G1.IsValid Jacobian.mul ∧
      Reachable (.bare .point₁) J.toPoint ∧ Jacobian.Multiplies G2.IsValid Jacobian.mul ∧
      Reachable (.bare .point₂) K.toPoint ∧
      (∃ t, (2 : Scalar).inverse = some t ∧
        Undone (Kind.mul .scalar) (Kind.Alike .scalar) 2 t 5 ∧
        Undone (Kind.mul .point₁) (Kind.Alike .point₁) 2 t P ∧
        Undone (Kind.mul .point₂) (Kind.Alike .point₂) 2 t Q ∧
        Undone Jacobian.mul Jacobian.Alike 2 t J ∧ Undone Jacobian.mul Jacobian.Alike 2 t K) ∧
      R.OnCurve G2.twistConstant ∧ ¬∀ s t : Scalar, s.inverse = some t →
        Undone (Kind.mul .point₂) (Kind.Alike .point₂) s t R := by
  intro P Q J K R
  have htwo : (2 : Scalar) ≠ 0 := by decide
  have hfive : Reachable (.bare .scalar) (5 : Scalar) := reachable_iff.2 trivial
  have hP : Reachable (.bare .point₁) P := reachable_iff.2 (G1.isValid_point G1.base)
  have hQ : Reachable (.bare .point₂) Q := reachable_iff.2 (G2.isValid_point G2.base)
  have hmul₁ : Jacobian.Multiplies G1.IsValid Jacobian.mul := Jacobian.multiplies_mul
  have hmul₂ : Jacobian.Multiplies G2.IsValid Jacobian.mul := fun J k hJ =>
    Jacobian.multiplies_mul J k hJ.1
  have hJ : Reachable (.bare .point₁) J.toPoint :=
    reachable_iff.2 (show G1.IsValid J.toPoint by decide +kernel)
  have hK : Reachable (.bare .point₂) K.toPoint :=
    reachable_iff.2 (show G2.IsValid K.toPoint by decide +kernel)
  have hR : R.OnCurve G2.twistConstant := G2.outsider.onCurve
  have hRvalid : ¬G2.IsValid R := by decide +kernel
  obtain ⟨-, hundone, htwist⟩ := scaling_undone
  obtain ⟨t, ht, helements, hcoords₁, hcoords₂⟩ := hundone 2 htwo
  exact ⟨htwo, hfive, hP, hQ, hmul₁, hJ, hmul₂, hK,
    ⟨t, ht, helements .scalar 5 hfive, helements .point₁ P hP, helements .point₂ Q hQ,
      hcoords₁ _ hmul₁ J hJ, hcoords₂ _ hmul₂ K hK⟩,
    hR, mt (htwist R hR).2 (mt reachable_iff.1 hRvalid)⟩

end BlsBn254
