import BlsBn254.Pairing
import BlsBn254.Proofs.Curve.Subgroup

/-!
# What is relied on of a pairing

Verification is defined for any product of pairings. That it does what it should is
due to the laws of a pairing (`IsPairing`): the product of several pairs is the product
of the values of each, the value is one where a point is the identity, sums of points
in either place are taken to products, and the value at the generators is not one.

Both groups are cyclic, so a pairing is known from its value `ζ` at the generators.
On the products of the generators by scalars it is the power of `ζ` by the sum of
products of these scalars (`IsPairing.eq_pow`), and it is one precisely if this sum is
zero (`IsPairing.eq_one_iff`), whichever pairing is taken.

One of the pairings is the sum of the products of discrete logarithms (`logPairing`),
which no one can compute.
-/

namespace BlsBn254

/-- The laws of a pairing, on points of the two groups. -/
structure IsPairing {T : Type} [CommMonoid T] (pairing : PairingProduct T) : Prop where
  /-- Without pairs, the product is one. -/
  nil : pairing [] = 1
  /-- Otherwise it is the value of the first pair times that of the others. -/
  cons : ∀ {P : G1} {Q : G2} {pairs : List (G1 × G2)}, P.IsValid → Q.IsValid →
    (∀ x ∈ pairs, x.1.IsValid ∧ x.2.IsValid) →
      pairing ((P, Q) :: pairs) = pairing [(P, Q)] * pairing pairs
  /-- The identity is taken to one in the first place, -/
  zero_left : ∀ {Q : G2}, Q.IsValid → pairing [(0, Q)] = 1
  /-- and in the second. -/
  zero_right : ∀ {P : G1}, P.IsValid → pairing [(P, 0)] = 1
  /-- Sums are taken to products in the first place, -/
  add_left : ∀ {P P' : G1} {Q : G2}, P.IsValid → P'.IsValid → Q.IsValid →
    pairing [(P + P', Q)] = pairing [(P, Q)] * pairing [(P', Q)]
  /-- and in the second. -/
  add_right : ∀ {P : G1} {Q Q' : G2}, P.IsValid → Q.IsValid → Q'.IsValid →
    pairing [(P, Q + Q')] = pairing [(P, Q)] * pairing [(P, Q')]
  /-- The value at the generators is not one. -/
  nondegenerate : pairing [(G1.generator, G2.generator)] ≠ 1

/-- The products of the generators by two scalars. -/
def multiples (c : Scalar × Scalar) : G1 × G2 := (c.1 • G1.generator, c.2 • G2.generator)

theorem isValid_multiples (c : Scalar × Scalar) :
    (multiples c).1.IsValid ∧ (multiples c).2.IsValid :=
  ⟨G1.isValid_smul_generator c.1, G2.isValid_smul_generator c.2⟩

namespace IsPairing

variable {T : Type} [CommMonoid T] {pairing : PairingProduct T}

/-! ## Powers of the value at the generators -/

/-- Sums of copies are taken to powers in the first place, -/
theorem nsmul_left (h : IsPairing pairing) (n : ℕ) (x : Torsion G1.curveConstant)
    (y : Torsion G2.twistConstant) :
    pairing [((n • x).point, y.point)] = pairing [(x.point, y.point)] ^ n := by
  induction n with
  | zero =>
    rw [zero_nsmul, pow_zero]
    exact h.zero_left (G2.isValid_point y)
  | succ n ih =>
    rw [succ_nsmul, pow_succ, ← ih]
    exact h.add_left (G1.isValid_point _) (G1.isValid_point x) (G2.isValid_point y)

/-- and in the second. -/
theorem nsmul_right (h : IsPairing pairing) (n : ℕ) (x : Torsion G1.curveConstant)
    (y : Torsion G2.twistConstant) :
    pairing [(x.point, (n • y).point)] = pairing [(x.point, y.point)] ^ n := by
  induction n with
  | zero =>
    rw [zero_nsmul, pow_zero]
    exact h.zero_right (G1.isValid_point x)
  | succ n ih =>
    rw [succ_nsmul, pow_succ, ← ih]
    exact h.add_right (G1.isValid_point x) (G2.isValid_point _) (G2.isValid_point y)

/-- The value at the generators is a root of unity, -/
theorem root_pow_order (h : IsPairing pairing) :
    pairing [(G1.generator, G2.generator)] ^ r = 1 := by
  rw [← G1.point_base, ← G2.point_base, ← h.nsmul_left, Torsion.order_nsmul]
  exact h.zero_left (G2.isValid_point _)

/-- and none of a lower order. -/
theorem orderOf_root (h : IsPairing pairing) :
    orderOf (pairing [(G1.generator, G2.generator)]) = r :=
  orderOf_eq_prime h.root_pow_order h.nondegenerate

/-- The value of a pair of products of the generators. -/
theorem single_eq_pow (h : IsPairing pairing) (c : Scalar × Scalar) :
    pairing [multiples c] = pairing [(G1.generator, G2.generator)] ^ (c.1 * c.2).val := by
  rw [multiples, ← G1.point_smul_base, ← G2.point_smul_base, Torsion.smul_def, Torsion.smul_def,
    h.nsmul_left, h.nsmul_right, ← pow_mul, mul_comm c.2.val, G1.point_base, G2.point_base,
    pow_eq_pow_mod _ h.root_pow_order, ← Residue.val_mul]

/-- The product of the values of products of the generators. -/
theorem eq_pow (h : IsPairing pairing) (l : List (Scalar × Scalar)) :
    pairing (l.map multiples) =
      pairing [(G1.generator, G2.generator)] ^
        (l.map fun c : Scalar × Scalar => c.1 * c.2).sum.val := by
  induction l with
  | nil =>
    rw [List.map_nil, h.nil]
    exact (pow_zero _).symm
  | cons c l ih =>
    -- The first pair is taken out of the product.
    have hvalid : ∀ x ∈ l.map multiples, x.1.IsValid ∧ x.2.IsValid := by
      intro x hx
      obtain ⟨d, -, rfl⟩ := List.mem_map.1 hx
      exact isValid_multiples d
    have hcons := h.cons (isValid_multiples c).1 (isValid_multiples c).2 hvalid
    rw [List.map_cons, List.map_cons, List.sum_cons, Residue.val_add,
      ← pow_eq_pow_mod _ h.root_pow_order, pow_add, ← h.single_eq_pow, ← ih]
    exact hcons

/-- The product is one precisely if the sum of the products of the scalars is zero. -/
theorem eq_one_iff (h : IsPairing pairing) (l : List (Scalar × Scalar)) :
    pairing (l.map multiples) = 1 ↔ (l.map fun c : Scalar × Scalar => c.1 * c.2).sum = 0 := by
  rw [h.eq_pow, ← orderOf_dvd_iff_pow_eq_one, h.orderOf_root]
  constructor
  · intro hdvd
    have hval := Nat.eq_zero_of_dvd_of_lt hdvd (Residue.isLt _)
    exact Residue.ext (hval.trans Residue.val_zero.symm)
  · intro hzero
    rw [hzero, Residue.val_zero]
    exact dvd_zero r

end IsPairing

/-! ## A pairing -/

/-- The sum of the products of the discrete logarithms, in multiplicative notation. -/
noncomputable def logPairing : PairingProduct (Multiplicative Scalar) := fun pairs =>
  .ofAdd (pairs.map fun x => G1.base.log x.1 * G2.base.log x.2).sum

theorem logPairing_single (P : G1) (Q : G2) :
    logPairing [(P, Q)] = .ofAdd (G1.base.log P * G2.base.log Q) :=
  congrArg Multiplicative.ofAdd List.sum_singleton

/-- The discrete logarithms make up a pairing. -/
theorem isPairing_logPairing : IsPairing logPairing where
  nil := rfl
  cons {P Q pairs} _ _ _ := by
    rw [logPairing_single, logPairing, logPairing, ← ofAdd_add, List.map_cons, List.sum_cons]
  zero_left _ := by
    rw [logPairing_single, Torsion.log_zero G1.base_ne_zero, zero_mul, ofAdd_zero]
  zero_right _ := by
    rw [logPairing_single, Torsion.log_zero G2.base_ne_zero, mul_zero, ofAdd_zero]
  add_left hP hP' _ := by
    rw [logPairing_single, logPairing_single, logPairing_single,
      Torsion.log_add G1.base_ne_zero (G1.isValid_iff_smul.1 hP) (G1.isValid_iff_smul.1 hP'),
      add_mul, ofAdd_add]
  add_right _ hQ hQ' := by
    rw [logPairing_single, logPairing_single, logPairing_single,
      Torsion.log_add G2.base_ne_zero (G2.isValid_iff_smul.1 hQ) (G2.isValid_iff_smul.1 hQ'),
      mul_add, ofAdd_add]
  nondegenerate := by
    rw [logPairing_single, ← G1.point_base, ← G2.point_base, Torsion.log_point G1.base_ne_zero,
      Torsion.log_point G2.base_ne_zero, one_mul]
    exact fun h => one_ne_zero (Multiplicative.ofAdd.injective h)

end BlsBn254
