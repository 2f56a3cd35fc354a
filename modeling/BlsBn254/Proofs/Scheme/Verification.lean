import BlsBn254.Proofs.Scheme.Pairing
import BlsBn254.Proofs.Scheme.Summation

/-!
# What verification accepts

The equation between pairings that a signature is verified by holds for the product of
the hash by the private key alone (`Scheme.agrees_iff`). So verification under the
public key of `k` has one of three results, whatever the pairing
(`Scheme.verify_publicKey`): the key is refused if `k` is zero, the signature is accepted
if it is the one that `k` gives, and else it is refused.

Aggregation adds up: the sum of public keys is the public key of the sum of the private
keys, and so for the signatures of a message (`Scheme.aggregate_publicKey`,
`Scheme.aggregate_signMessage`). Verification under several keys is that under their
sum.
-/

namespace BlsBn254

namespace G1

theorem IsValid.add {P Q : G1} (hP : P.IsValid) (hQ : Q.IsValid) : IsValid (P + Q) :=
  Point.OnCurve.add hP hQ

theorem IsValid.smul {P : G1} (hP : P.IsValid) (k : Scalar) : IsValid (k • P) := by
  obtain ⟨x, rfl⟩ := isValid_iff.1 hP
  rw [← Torsion.point_smul]
  exact isValid_point _

end G1

/-- A message hashes to a point of the group. -/
theorem isValid_hashToCurve (tag bytes : Bytes) : (hashToCurve tag bytes).IsValid :=
  G1.IsValid.add (CurveMap.isValid_toPoint _) (CurveMap.isValid_toPoint _)

namespace Scheme

theorem isValid_sign (k : Scalar) (tag bytes : Bytes) : (sign k tag bytes).IsValid :=
  (isValid_hashToCurve tag bytes).smul k

theorem publicKey_def (k : Scalar) : publicKey k = k • G2.generator := rfl

theorem isValid_publicKey (k : Scalar) : (publicKey k).IsValid := G2.isValid_smul_generator k

/-- The points of `G2` are the public keys. -/
theorem isValid_iff_publicKey {Q : G2} : Q.IsValid ↔ ∃ k, Q = publicKey k := G2.isValid_iff_smul

/-- A public key has one private key. -/
theorem publicKey_injective : Function.Injective publicKey :=
  Torsion.smul_point_injective G2.base_ne_zero

/-- The identity is the public key of zero alone. -/
theorem publicKey_eq_zero_iff {k : Scalar} : publicKey k = 0 ↔ k = 0 := by
  rw [← publicKey_injective.eq_iff]
  exact Iff.of_eq (congrArg _ (Torsion.zero_smul_point G2.base).symm)

/-! ## A single key -/

section Verify

variable {T : Type} [CommMonoid T] [DecidableEq T] {pairing : PairingProduct T}

/-- The pairings agree for the product of the hash by the private key alone. -/
theorem agrees_iff (h : IsPairing pairing) (k : Scalar) {H S : G1} (hH : H.IsValid)
    (hS : S.IsValid) : agrees pairing (publicKey k) H S = true ↔ S = k • H := by
  -- Everything is a product of a generator, so the pairings are known from the scalars.
  obtain ⟨a, rfl⟩ := G1.isValid_iff_smul.1 hH
  obtain ⟨s, rfl⟩ := G1.isValid_iff_smul.1 hS
  have hpairs : [(a • G1.generator, publicKey k), (-(s • G1.generator), G2.generator)] =
      [(a, k), (-s, 1)].map multiples := by
    rw [List.map_cons, List.map_cons, List.map_nil, multiples, multiples, ← G1.point_base,
      Torsion.neg_smul_point, ← G2.point_base, Torsion.one_smul_point]
    rfl
  rw [agrees, decide_eq_true_iff, hpairs, h.eq_one_iff, ← G1.point_base, ← Torsion.mul_smul_point,
    (Torsion.smul_point_injective G1.base_ne_zero).eq_iff]
  constructor
  · intro hsum
    simp only [List.map_cons, List.map_nil, List.sum_cons, List.sum_nil] at hsum
    linear_combination -hsum
  · rintro rfl
    simp only [List.map_cons, List.map_nil, List.sum_cons, List.sum_nil]
    ring

/-- Verification under the public key of `k` accepts the signature that `k` gives, and
    no other, unless `k` is zero. -/
theorem verify_publicKey (h : IsPairing pairing) (k : Scalar) (tag bytes : Bytes) {S : G1}
    (hS : S.IsValid) :
    verify pairing (publicKey k) tag bytes S =
      if k = 0 then .error .invalidPublicKey
      else if S = sign k tag bytes then .ok ()
      else .error .invalidSignature := by
  have hagrees := agrees_iff h k (isValid_hashToCurve tag bytes) hS
  rw [verify]
  exact if_congr publicKey_eq_zero_iff rfl (if_congr hagrees rfl rfl)

theorem verify_eq_ok_iff (h : IsPairing pairing) (k : Scalar) (tag bytes : Bytes) {S : G1}
    (hS : S.IsValid) :
    verify pairing (publicKey k) tag bytes S = .ok () ↔ k ≠ 0 ∧ S = sign k tag bytes := by
  rw [verify_publicKey h k tag bytes hS]
  split_ifs with hk hsign
  · simp [hk]
  · simp [hk, hsign]
  · simp [hk, hsign]

/-- A signature is accepted if it is the one of a private key other than zero. -/
theorem verifyMessage_eq_ok_iff (h : IsPairing pairing) (k : Scalar) (ns : Option Bytes)
    (message : Bytes) {S : G1} (hS : S.IsValid) :
    verifyMessage pairing (publicKey k) ns message S = .ok () ↔
      k ≠ 0 ∧ S = signMessage k ns message :=
  verify_eq_ok_iff h k Tag.message (Payload.ofMessage ns message) hS

end Verify

/-! ## Several keys -/

section Aggregate

variable {F : Type} [Field F] [DecidableEq F] {b : F} [(weierstrass b).IsElliptic]

/-- Points stand for the scalars by which they are products of a point. -/
theorem isSummation_points (x : Torsion b) :
    IsSummation (fun (P : Point F) (k : Scalar) => P = k • x.point) (· + ·) aggregate := by
  refine isSummation_foldl (Torsion.zero_smul_point x).symm ?_
  rintro _ _ k l rfl rfl
  exact (Torsion.add_smul_point k l x).symm

/-- The products of a point add up to its product by the sum of the scalars. -/
theorem aggregate_smul_point (ks : List Scalar) (x : Torsion b) :
    aggregate (ks.map fun k => k • x.point) = ks.sum • x.point :=
  (isSummation_points x).sum (List.forall₂_map_left_iff.2 (List.forall₂_same.2 fun _ _ => rfl))

/-- The public keys add up to the public key of the sum. -/
theorem aggregate_publicKey (ks : List Scalar) : aggregate (ks.map publicKey) = publicKey ks.sum :=
  aggregate_smul_point ks G2.base

/-- The signatures of the same bytes add up to the signature of the sum. -/
theorem aggregate_sign (ks : List Scalar) (tag bytes : Bytes) :
    aggregate (ks.map fun k => sign k tag bytes) = sign ks.sum tag bytes := by
  obtain ⟨x, hx⟩ := G1.isValid_iff.1 (isValid_hashToCurve tag bytes)
  simp only [sign, ← hx]
  exact aggregate_smul_point ks x

theorem aggregate_signMessage (ks : List Scalar) (ns : Option Bytes) (message : Bytes) :
    aggregate (ks.map fun k => signMessage k ns message) = signMessage ks.sum ns message :=
  aggregate_sign ks Tag.message (Payload.ofMessage ns message)

/-- Two keys give the same signature if they are equal, or the hash is the identity. -/
theorem sign_eq_sign_iff {k l : Scalar} {tag bytes : Bytes} :
    sign k tag bytes = sign l tag bytes ↔ k = l ∨ hashToCurve tag bytes = 0 := by
  obtain ⟨x, hx⟩ := G1.isValid_iff.1 (isValid_hashToCurve tag bytes)
  rw [sign, sign, ← hx, Torsion.point_eq_zero_iff]
  constructor
  · intro h
    rcases eq_or_ne x 0 with hzero | hzero
    · exact .inr hzero
    · exact .inl (Torsion.smul_point_injective hzero h)
  · rintro (rfl | rfl)
    · rfl
    · rw [← Torsion.point_smul, ← Torsion.point_smul, smul_zero, smul_zero]

variable {T : Type} [CommMonoid T] [DecidableEq T] {pairing : PairingProduct T}

/-- Verification under several public keys refuses them for any signature if the private
    keys add up to zero. -/
theorem verifyAggregate_eq_invalidPublicKey_iff (ks : List Scalar) (ns : Option Bytes)
    (message : Bytes) (S : G1) :
    verifyAggregate pairing (ks.map publicKey) ns message S = .error .invalidPublicKey ↔
      ks.sum = 0 := by
  rw [verifyAggregate, aggregate_publicKey, verifyMessage, verify, ← publicKey_eq_zero_iff]
  -- The identity is looked for before the pairings are.
  split_ifs with hk
  · simp [hk]
  · simp [hk]
  · simp [hk]

/-- Otherwise it accepts the aggregate of the signatures, -/
theorem verifyAggregate_eq_ok_iff (h : IsPairing pairing) (ks : List Scalar) (ns : Option Bytes)
    (message : Bytes) {S : G1} (hS : S.IsValid) :
    verifyAggregate pairing (ks.map publicKey) ns message S = .ok () ↔
      ks.sum ≠ 0 ∧ S = aggregate (ks.map fun k => signMessage k ns message) := by
  rw [verifyAggregate, aggregate_publicKey, aggregate_signMessage]
  exact verifyMessage_eq_ok_iff h ks.sum ns message hS

/-- and refuses every other signature. -/
theorem verifyAggregate_eq_invalidSignature_iff (h : IsPairing pairing) (ks : List Scalar)
    (ns : Option Bytes) (message : Bytes) {S : G1} (hS : S.IsValid) :
    verifyAggregate pairing (ks.map publicKey) ns message S = .error .invalidSignature ↔
      ks.sum ≠ 0 ∧ S ≠ aggregate (ks.map fun k => signMessage k ns message) := by
  rw [verifyAggregate, aggregate_publicKey, aggregate_signMessage, verifyMessage,
    verify_publicKey h _ _ _ hS, signMessage]
  split_ifs with hk hsign
  · simp [hk]
  · simp [hk, hsign]
  · simp [hk, hsign]

end Aggregate

end Scheme

end BlsBn254
