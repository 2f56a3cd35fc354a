import BlsBn254.Proofs.Codec.Canonical

/-!
# Points of the curve need no check of their order

A point of `G2` is accepted only if `r` takes it to infinity, while a point of `G1`
is accepted if it lies on the curve. That is the same, as the curve has `r` points:
what is read from bytes, and what the map to the curve gives, has the order `r` or is
the point at infinity, and the accepted points are the `r` multiples of the generator
(`G1.accepted_points_cyclic`). The multiples here are sums by the chord-and-tangent law,
one copy after the other, and not those that the binary method computes.
-/

namespace BlsBn254

/-- The order of a point is `n`: its copies add up to infinity precisely if their
    number is a multiple of `n`. -/
def Point.HasOrder {F : Type} [Zero F] [Add F] [Sub F] [Mul F] [Inv F] [DecidableEq F]
    (P : Point F) (n : ℕ) : Prop := ∀ k, nsmulRec k P = 0 ↔ n ∣ k

/-! ## Sums of copies -/

section Copies

variable {F : Type} [Field F] [DecidableEq F] {b : F} [(weierstrass b).IsElliptic]

/-- Copies of a point of the curve add up to the multiple of the point. -/
theorem PointOn.nsmulRec_point (k : ℕ) (P : PointOn b) : nsmulRec k P.point = (k • P).point := by
  induction k with
  | zero => rfl
  | succ k ih => rw [nsmulRec, ih, succ_nsmul, point_add]

namespace Torsion

/-- Copies of a point add up to its multiple. -/
theorem nsmulRec_point (k : ℕ) (x : Torsion b) : nsmulRec k x.point = (k • x).point :=
  PointOn.nsmulRec_point k x.1

/-- As many copies as the order add up to infinity. -/
theorem nsmulRec_order_point (x : Torsion b) : nsmulRec r x.point = 0 := by
  rw [nsmulRec_point, order_nsmul, point_zero]

/-- A point other than infinity has the order `r`. -/
theorem hasOrder_point {x : Torsion b} (hx : x ≠ 0) : x.point.HasOrder r := fun k => by
  rw [nsmulRec_point, point_eq_zero_iff, ← addOrderOf_eq hx, addOrderOf_dvd_iff_nsmul_eq_zero]
  exact Subtype.ext_iff

end Torsion

end Copies

/-! ## The accepted points -/

namespace G1

/-- The point is read from some byte string. -/
def Accepted (P : G1) : Prop := ∃ b : Bytes, b.length = encodedLength ∧ parse b = .ok P

/-- The points that are read are those of the curve. -/
theorem accepted_iff {P : G1} : P.Accepted ↔ P.IsValid := by
  constructor
  · rintro ⟨b, hb, h⟩
    exact ((parse_eq_ok_iff hb).1 h).1
  · intro h
    exact ⟨P.encode, length_encode P, (parse_eq_ok_iff (length_encode P)).2 ⟨h, rfl⟩⟩

/-- A point of the curve has the order `r` or is the point at infinity. -/
theorem IsValid.hasOrder {P : G1} (hP : P.IsValid) :
    nsmulRec r P = 0 ∧ (P ≠ 0 → P.HasOrder r) := by
  obtain ⟨x, rfl⟩ := isValid_iff.1 hP
  refine ⟨x.nsmulRec_order_point, fun hx => Torsion.hasOrder_point ?_⟩
  exact mt Torsion.point_eq_zero_iff.2 hx

/-- The points of the curve are the first `r` multiples of the generator. -/
theorem isValid_iff_nsmulRec {P : G1} : P.IsValid ↔ ∃ k < r, P = nsmulRec k generator := by
  rw [isValid_iff_smul]
  constructor
  · rintro ⟨k, rfl⟩
    refine ⟨k.val, k.isLt, ?_⟩
    rw [← point_smul_base, ← point_base, Torsion.nsmulRec_point, Torsion.smul_def]
  · rintro ⟨k, -, rfl⟩
    refine ⟨k, ?_⟩
    rw [← point_smul_base, ← point_base, Torsion.nsmulRec_point, Nat.cast_smul_eq_nsmul]

/-- The scalars are in bijection with the accepted points. -/
noncomputable def acceptedEquiv : Scalar ≃ {P : G1 // P.Accepted} :=
  Equiv.ofBijective
    (fun k => ⟨(k • base).point, accepted_iff.2 (isValid_point _)⟩) <| by
    constructor
    · intro k l h
      exact smul_left_injective Scalar base_ne_zero
        (Torsion.point_injective (congrArg Subtype.val h))
    · rintro ⟨P, hP⟩
      obtain ⟨k, rfl⟩ := isValid_iff_smul.1 (accepted_iff.1 hP)
      exact ⟨k, Subtype.ext (point_smul_base k)⟩

theorem acceptedEquiv_val (k : Scalar) : (acceptedEquiv k).1 = (k • base).point := rfl

/-- Points need no check of their order: those that are read from bytes, and those
    that the map to the curve gives, have the order `r` or are the point at infinity,
    and the accepted points with the chord-and-tangent law are the group of prime order
    `r` that the generator generates. -/
theorem accepted_points_cyclic :
    r.Prime ∧
      (∀ (b : Bytes) (P : G1), b.length = encodedLength → parse b = .ok P →
        nsmulRec r P = 0 ∧ (P ≠ 0 → P.HasOrder r)) ∧
      (∀ t : Fp, nsmulRec r (CurveMap.toPoint t) = 0 ∧
        (CurveMap.toPoint t ≠ 0 → (CurveMap.toPoint t).HasOrder r)) ∧
      generator.HasOrder r ∧
      {P : G1 | P.Accepted} = {P | ∃ k < r, P = nsmulRec k generator} ∧
      {P : G1 | P.Accepted}.ncard = r ∧
      ∃ φ : Scalar ≃ {P : G1 // P.Accepted}, (φ 1).1 = generator ∧
        ∀ k l, (φ (k + l)).1 = (φ k).1 + (φ l).1 := by
  refine ⟨prime_order, fun b P hb h => ?_, fun t => (CurveMap.isValid_toPoint t).hasOrder,
    Torsion.hasOrder_point base_ne_zero, ?_, ?_, acceptedEquiv, ?_, fun k l => ?_⟩
  · exact ((parse_eq_ok_iff hb).1 h).1.hasOrder
  · ext P
    exact accepted_iff.trans isValid_iff_nsmulRec
  · calc {P : G1 | P.Accepted}.ncard = Nat.card {P : G1 // P.Accepted} := rfl
      _ = Nat.card Scalar := Nat.card_congr acceptedEquiv.symm
      _ = r := Nat.card_eq_fintype_card.trans Residue.card_eq
  · rw [acceptedEquiv_val, one_smul, point_base]
  · rw [acceptedEquiv_val, acceptedEquiv_val, acceptedEquiv_val, add_smul, Torsion.point_add]

/-- The generator is read from its encoding, and has the order `r`. -/
theorem generator_accepted : generator.encode.length = encodedLength ∧
    parse generator.encode = .ok generator ∧ nsmulRec r generator = 0 ∧ generator.HasOrder r :=
  have hlen : generator.encode.length = encodedLength := by decide
  have hparse : parse generator.encode = .ok generator := by decide +kernel
  have h := accepted_points_cyclic.2.1 generator.encode generator hlen hparse
  ⟨hlen, hparse, h.1, h.2 (by decide)⟩

end G1

end BlsBn254
