import BlsBn254.Proofs.Curve.Coordinates
import BlsBn254.Proofs.Scheme.Verification

/-!
# One product for two pairings

A signature verifies if two pairings have the same value: that of the hash and the public
key, and that of the signature and the generator. They are not computed one by one.
Instead the product of the first and of the pairing of the opposite of the signature and
the generator is compared with one, which is the same because a pairing takes opposite
points to inverse values (`IsProductOf.neg_left`).

Of the pairing, that takes only additivity in the first place (`IsProductOf`). It holds for
all points of the two groups, the identity in any place included, and for all Jacobian
coordinates of them (`Scheme.agrees_iff_pairings_eq`), of which the opposite point is taken
before the points are normalised (`Scheme.agreesOnCoordinates`).
-/

namespace BlsBn254

/-! ## What is relied on -/

/-- The value at a list of pairs of points is the product of the values of `e` at the
    pairs. The function `e` takes the identity in either place to one, and sums in the first
    place to products. -/
structure IsProductOf {T : Type} [CommMonoid T] (pairing : PairingProduct T) (e : G1 → G2 → T) :
    Prop where
  /-- The values at the pairs are multiplied. -/
  product : ∀ {pairs : List (G1 × G2)}, (∀ x ∈ pairs, x.1.IsValid ∧ x.2.IsValid) →
    pairing pairs = (pairs.map fun x => e x.1 x.2).prod
  /-- The identity contributes one in the first place, -/
  zero_left : ∀ {Q : G2}, Q.IsValid → e 0 Q = 1
  /-- and in the second. -/
  zero_right : ∀ {P : G1}, P.IsValid → e P 0 = 1
  /-- Sums are taken to products in the first place. -/
  add_left : ∀ {P P' : G1} {Q : G2}, P.IsValid → P'.IsValid → Q.IsValid →
    e (P + P') Q = e P Q * e P' Q

namespace G1

theorem IsValid.neg {P : G1} (hP : P.IsValid) : IsValid (-P) := Point.OnCurve.neg hP

/-- Opposite points add up to the identity. -/
theorem IsValid.neg_add {P : G1} (hP : P.IsValid) : -P + P = 0 := by
  obtain ⟨x, rfl⟩ := isValid_iff.1 hP
  rw [← Torsion.point_neg, ← Torsion.point_add, neg_add_cancel, Torsion.point_zero]

end G1

section Product

variable {T : Type} [CommMonoid T] {pairing : PairingProduct T} {e : G1 → G2 → T}

/-- Opposite points have inverse values. -/
theorem IsProductOf.neg_left (h : IsProductOf pairing e) {P : G1} {Q : G2} (hP : P.IsValid)
    (hQ : Q.IsValid) : e (-P) Q * e P Q = 1 := by
  rw [← h.add_left hP.neg hP hQ, hP.neg_add, h.zero_left hQ]

/-- Every pairing is the product of its values at single pairs. -/
theorem IsPairing.isProductOf (h : IsPairing pairing) :
    IsProductOf pairing fun P Q => pairing [(P, Q)] where
  product {pairs} hpairs := by
    induction pairs with
    | nil => exact h.nil
    | cons x pairs ih =>
      obtain ⟨hx, hpairs⟩ := List.forall_mem_cons.1 hpairs
      rw [List.map_cons, List.prod_cons, ← ih hpairs]
      exact h.cons hx.1 hx.2 hpairs
  zero_left := h.zero_left
  zero_right := h.zero_right
  add_left := h.add_left

end Product

/-! ## The check on coordinates -/

namespace Jacobian

variable {F : Type} [Field F]

/-- Coordinates of the opposite point, of the same scale. -/
instance : Neg (Jacobian F) := ⟨fun P => ⟨P.x, -P.y, P.z⟩⟩

theorem toPoint_neg [DecidableEq F] (P : Jacobian F) : (-P).toPoint = -P.toPoint := by
  rcases eq_or_ne P.z 0 with hz | hz
  · rw [toPoint_of_eq_zero hz, toPoint_of_eq_zero (P := -P) hz]
    rfl
  · rw [toPoint_of_ne_zero hz, toPoint_of_ne_zero (P := -P) hz]
    exact congrArg (Point.affine _) (neg_div _ _)

end Jacobian

namespace Scheme

section Coordinates

variable {T : Type} [One T] [DecidableEq T] (pairing : PairingProduct T)

/-- Whether the pairing of `H` and the public key is that of the signature and the
    generator, all but the generator given by coordinates. These are normalised, together
    those of `H` and of the opposite of the signature. -/
def agreesOnCoordinates (Q : Jacobian Fp2) (H S : Jacobian Fp) : Bool :=
  pairing (([H, -S].map Jacobian.toPoint).zip [Q.toPoint, G2.generator]) = 1

/-- It makes no difference by which coordinates the points are given. -/
theorem agreesOnCoordinates_eq (Q : Jacobian Fp2) (H S : Jacobian Fp) :
    agreesOnCoordinates pairing Q H S = agrees pairing Q.toPoint H.toPoint S.toPoint := by
  rw [agrees, ← Jacobian.toPoint_neg]
  rfl

end Coordinates

variable {T : Type} [CommMonoid T] [DecidableEq T] {pairing : PairingProduct T}
  {e : G1 → G2 → T}

/-- The product is one precisely if the pairings have the same value. -/
theorem agrees_iff_eq (h : IsProductOf pairing e) {Q : G2} {H S : G1} (hQ : Q.IsValid)
    (hH : H.IsValid) (hS : S.IsValid) :
    agrees pairing Q H S = true ↔ e H Q = e S G2.generator := by
  have hgen : G2.generator.IsValid := G2.isValid_point G2.base
  have hpairs : ∀ x ∈ [(H, Q), (-S, G2.generator)], x.1.IsValid ∧ x.2.IsValid :=
    List.forall_mem_cons.2 ⟨⟨hH, hQ⟩, List.forall_mem_singleton.2 ⟨hS.neg, hgen⟩⟩
  have hinv : e (-S) G2.generator * e S G2.generator = 1 := h.neg_left hS hgen
  rw [agrees, decide_eq_true_iff, h.product hpairs, List.map_cons, List.map_singleton,
    List.prod_cons, List.prod_singleton]
  constructor
  · intro hone
    calc e H Q = e H Q * (e (-S) G2.generator * e S G2.generator) := by rw [hinv, mul_one]
      _ = e S G2.generator := by rw [← mul_assoc, hone, one_mul]
  · intro heq
    rw [heq, mul_comm, hinv]

/-- The single product is one if and only if the pairing of the hash and the public key has
    the value of that of the signature and the generator: for all points of the two groups,
    the identity included, for all coordinates of them, and where the hash is that of a
    message and the key is not the identity, which verification refuses. -/
theorem agrees_iff_pairings_eq (h : IsProductOf pairing e) :
    (∀ (Q : G2) (H S : G1), Q.IsValid → H.IsValid → S.IsValid →
        (agrees pairing Q H S = true ↔ e H Q = e S G2.generator)) ∧
      (∀ (Q : Jacobian Fp2) (H S : Jacobian Fp), G2.IsValid Q.toPoint →
        H.OnCurve G1.curveConstant → S.OnCurve G1.curveConstant →
          (agreesOnCoordinates pairing Q H S = true ↔
            e H.toPoint Q.toPoint = e S.toPoint G2.generator)) ∧
      ∀ (Q : G2) (tag bytes : Bytes) (S : G1), Q.IsValid → S.IsValid →
        (verify pairing Q tag bytes S = .ok () ↔
          Q ≠ 0 ∧ e (hashToCurve tag bytes) Q = e S G2.generator) := by
  refine ⟨fun Q H S => agrees_iff_eq h, fun Q H S hQ hH hS => ?_, fun Q tag bytes S hQ hS => ?_⟩
  · rw [agreesOnCoordinates_eq]
    exact agrees_iff_eq h hQ (Jacobian.onCurve_toPoint_iff.2 hH) (Jacobian.onCurve_toPoint_iff.2 hS)
  · rw [← agrees_iff_eq h hQ (isValid_hashToCurve tag bytes) hS, verify]
    split_ifs with hzero hagrees
    · simp [hzero]
    · simp [hzero, hagrees]
    · simp [hzero, hagrees]

/-- The double of the generator, in coordinates with another scale than one, agrees with
    itself under the generator as the key, and so do coordinates at infinity. Under the
    identity the generator does not. -/
theorem agrees_double_generator :
    let K := Jacobian.ofPoint G2.generator
    let J := (Jacobian.ofPoint G1.generator).double
    let O : Jacobian Fp := Jacobian.infinity
    (IsProductOf logPairing (fun P Q => logPairing [(P, Q)]) ∧ J.z ≠ 1 ∧
        G2.IsValid K.toPoint ∧ J.OnCurve G1.curveConstant ∧ O.OnCurve G1.curveConstant) ∧
      agreesOnCoordinates logPairing K J J = true ∧
      agreesOnCoordinates logPairing K O O = true ∧
      agrees logPairing 0 G1.generator G1.generator = false := by
  intro K J O
  have hprod := isPairing_logPairing.isProductOf
  have hscale : J.z ≠ 1 := by decide
  have hgen₁ : G1.generator.IsValid := G1.isValid_point G1.base
  have hK : K.toPoint = G2.generator := Jacobian.toPoint_ofPoint _
  have hQ : G2.IsValid K.toPoint := hK ▸ G2.isValid_point G2.base
  have hJ : J.OnCurve G1.curveConstant := .inr (by decide +kernel)
  have hO : O.OnCurve G1.curveConstant := .inl rfl
  obtain ⟨hpoints, hcoordinates, -⟩ := agrees_iff_pairings_eq hprod
  refine ⟨⟨hprod, hscale, hQ, hJ, hO⟩, (hcoordinates K J J hQ hJ hJ).2 (by rw [hK]),
    (hcoordinates K O O hQ hO hO).2 (by rw [hK]), ?_⟩
  rw [← Bool.not_eq_true, hpoints 0 _ _ G2.isValid_zero hgen₁ hgen₁, hprod.zero_right hgen₁]
  exact isPairing_logPairing.nondegenerate.symm

end Scheme

end BlsBn254
