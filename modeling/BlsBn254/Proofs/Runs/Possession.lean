import BlsBn254.Proofs.Hash.Collision
import BlsBn254.Proofs.Runs.Validity

/-!
# Proofs of possession

A proof of possession is verified under a public key alone: the bytes that are signed are
the encoding of this key, which the holder of the private key computes from the private
key, and the verifier from the point, whatever its coordinates. They come to the same, so
a public key other than the identity has one proof, which its private key gives
(`Scheme.verifyPossession_eq_ok_iff`).

What is signed under a tag is accepted under another tag, for the same bytes or for
others, only if both hash to the same point (`Scheme.verify_sign_eq_ok_iff`). So a proof
of possession is no signature of a message, not even of the encoded key, and a signature no
proof, unless two hashes under different tags collide (`possession_binds_key`). On the way to
these hashes no byte string is hashed under both tags (`Tag.disjoint_events`).
-/

namespace BlsBn254

namespace Tag

/-- No message is signed under the tag of proofs, -/
theorem message_ne_possession : message ≠ possession := by decide

/-- and no byte string is hashed for both. -/
theorem disjoint_events (a b : Bytes) (m n : ℕ) :
    List.Disjoint (Expander.recorded a message m).events
      (Expander.recorded b possession n).events :=
  Expander.disjoint_events (by decide) (by decide) message_ne_possession a b m n

end Tag

/-- The product by a scalar other than zero takes different points to different points. -/
theorem G1.smul_eq_smul_iff {k : Scalar} (hk : k ≠ 0) {P Q : G1} (hP : P.IsValid)
    (hQ : Q.IsValid) : k • P = k • Q ↔ P = Q := by
  obtain ⟨x, rfl⟩ := isValid_iff.1 hP
  obtain ⟨y, rfl⟩ := isValid_iff.1 hQ
  rw [← Torsion.point_smul, ← Torsion.point_smul, Torsion.point_injective.eq_iff,
    Torsion.point_injective.eq_iff]
  exact (smul_right_injective _ hk).eq_iff

namespace Scheme

section Verify

variable {T : Type} [CommMonoid T] [DecidableEq T] {pairing : PairingProduct T}

/-- A proof of possession is accepted if it is the one of a private key other than zero. -/
theorem verifyPossession_eq_ok_iff (h : IsPairing pairing) (k : Scalar) {S : G1}
    (hS : S.IsValid) :
    verifyPossession pairing (publicKey k) S = .ok () ↔ k ≠ 0 ∧ S = provePossession k :=
  verify_eq_ok_iff h k Tag.possession (publicKey k).encode hS

/-- A signature is accepted under another tag, or of other bytes, if both hash to the same
    point. -/
theorem verify_sign_eq_ok_iff (h : IsPairing pairing) {k : Scalar} (hk : k ≠ 0)
    (tag bytes tag' bytes' : Bytes) :
    verify pairing (publicKey k) tag bytes (sign k tag' bytes') = .ok () ↔
      hashToCurve tag' bytes' = hashToCurve tag bytes := by
  rw [verify_eq_ok_iff h k tag bytes (isValid_sign k tag' bytes'), and_iff_right hk]
  exact G1.smul_eq_smul_iff hk (isValid_hashToCurve tag' bytes') (isValid_hashToCurve tag bytes)

end Verify

end Scheme

section Possession

variable {T : Type} [CommMonoid T] [DecidableEq T] {pairing : PairingProduct T}

/-- A verifier says yes to a proof if the elements verify. -/
theorem PublicKey.verifyPossession_eq_true_iff {K : PublicKey} {s : Signature} :
    K.verifyPossession pairing s = true ↔
      Scheme.verifyPossession pairing K.element s.element = .ok () := by
  rw [← isOk_eq_true_iff, verifyPossession]
  cases Scheme.verifyPossession pairing K.element s.element with
  | error cause => exact Iff.rfl
  | ok u => exact Iff.rfl

/-- A packed public key that a run reaches belongs to a private key. Under it the packed
    proof is accepted that this private key gives, and no other. -/
theorem exists_verifyPossession_iff (h : IsPairing pairing) {K : PublicKey}
    (hK : Reachable (.packed .point₂) K) :
    ∃ k : Scalar, K = PrivateKey.publicKey (.of k) ∧
      ∀ s : Signature, Reachable (.packed .point₁) s →
        (K.verifyPossession pairing s = true ↔
          k ≠ 0 ∧ s = PrivateKey.provePossession (.of k)) := by
  obtain ⟨k, hk⟩ := Scheme.isValid_iff_publicKey.1 hK.valid.valid
  refine ⟨k, hK.valid.eq_of_iff.2 hk, fun s hs => ?_⟩
  rw [PublicKey.verifyPossession_eq_true_iff, hk,
    Scheme.verifyPossession_eq_ok_iff h k hs.valid.valid, PrivateKey.provePossession,
    hs.valid.eq_of_iff, Packed.element_of]

/-- The points of `G2` that runs reach are the products of the generator by the scalars.
    Under such a point, by whatever coordinates it is given, and for a scalar other than
    zero, a point of `G1` is accepted as a proof of possession if and only if it is the one
    that the scalar gives. That proof is accepted as the signature of a message, and the
    signature as a proof, if and only if the message and the encoded key, each under its own
    tag, hash to the same point; and the two tags are different, so that no byte string is
    hashed under both. For the scalar zero every proof is refused because of the key. Packed
    keys and proofs are no different. -/
theorem possession_binds_key (h : IsPairing pairing) :
    Tag.message ≠ Tag.possession ∧
      (∀ (a b : Bytes) (m n : ℕ), List.Disjoint (Expander.recorded a Tag.message m).events
          (Expander.recorded b Tag.possession n).events) ∧
      (∀ (k : Scalar) (J : Jacobian Fp2), k ≠ 0 → J.toPoint = k • G2.generator →
          (∀ K : Jacobian Fp, Reachable (.bare .point₁) K.toPoint →
            (Scheme.verifyPossession pairing J.toPoint K.toPoint = .ok () ↔
              K.toPoint = Scheme.provePossession k)) ∧
          ∀ (ns : Option Bytes) (message : Bytes),
            (Scheme.verifyMessage pairing J.toPoint ns message (Scheme.provePossession k) =
                .ok () ↔
              hashToCurve Tag.message (Payload.ofMessage ns message) =
                hashToCurve Tag.possession (G2.encode J.toPoint)) ∧
            (Scheme.verifyPossession pairing J.toPoint (Scheme.signMessage k ns message) =
                .ok () ↔
              hashToCurve Tag.message (Payload.ofMessage ns message) =
                hashToCurve Tag.possession (G2.encode J.toPoint))) ∧
      (∀ J : Jacobian Fp2, J.toPoint = (0 : Scalar) • G2.generator → ∀ S : G1,
        Scheme.verifyPossession pairing J.toPoint S = .error .invalidPublicKey) ∧
      (∀ Q : G2, Reachable (.bare .point₂) Q ↔ ∃ k : Scalar, Q = k • G2.generator) ∧
      ∀ K : PublicKey, Reachable (.packed .point₂) K →
        ∃ k : Scalar, K = PrivateKey.publicKey (.of k) ∧
          ∀ s : Signature, Reachable (.packed .point₁) s →
            (K.verifyPossession pairing s = true ↔
              k ≠ 0 ∧ s = PrivateKey.provePossession (.of k)) := by
  refine ⟨Tag.message_ne_possession, Tag.disjoint_events, fun k J hk hJ => ?_, fun J hJ S => ?_,
    fun Q => ?_, fun K hK => exists_verifyPossession_iff h hK⟩
  · rw [hJ, ← Scheme.publicKey_def]
    refine ⟨fun K hK => ?_, fun ns message => ⟨?_, ?_⟩⟩
    · rw [Scheme.verifyPossession_eq_ok_iff h k hK.valid, and_iff_right hk]
    · -- The proof is a signature under the tag of proofs.
      rw [Scheme.verifyMessage, Scheme.provePossession, Scheme.verify_sign_eq_ok_iff h hk]
      exact eq_comm
    · rw [Scheme.verifyPossession, Scheme.signMessage, Scheme.verify_sign_eq_ok_iff h hk]
  · have hzero : J.toPoint = 0 := hJ.trans (Torsion.zero_smul_point G2.base)
    rw [Scheme.verifyPossession, Scheme.verify, if_pos hzero]
  · rw [reachable_iff]
    exact G2.isValid_iff_smul

end Possession

/-- The proof of the private key two is accepted under twice the generator, in coordinates
    with another scale than one, and under the packed key. It is no signature of the encoded
    key or of the message `7`, and the signatures of these are no proofs. At infinity the
    identity is refused. -/
theorem possession_two :
    let k : Scalar := 2
    let J := (Jacobian.ofPoint G2.generator).double
    let K := Jacobian.ofPoint (Scheme.provePossession k)
    let encoded := G2.encode J.toPoint
    (IsPairing logPairing ∧ k ≠ 0 ∧ J.z ≠ 1 ∧ J.toPoint = k • G2.generator ∧
        Reachable (.bare .point₁) K.toPoint) ∧
      Scheme.verifyPossession logPairing J.toPoint K.toPoint = .ok () ∧
      (Scheme.verifyMessage logPairing J.toPoint none encoded (Scheme.provePossession k) ≠ .ok () ∧
        Scheme.verifyPossession logPairing J.toPoint (Scheme.signMessage k none encoded) ≠
          .ok ()) ∧
      Scheme.verifyMessage logPairing J.toPoint none [7] (Scheme.provePossession k) ≠ .ok () ∧
      Scheme.verifyPossession logPairing J.toPoint (Scheme.signMessage k none [7]) ≠ .ok () ∧
      Scheme.verifyPossession logPairing (Jacobian.infinity : Jacobian Fp2).toPoint 0 =
        .error .invalidPublicKey ∧
      (PrivateKey.publicKey (.of k)).verifyPossession logPairing
        (PrivateKey.provePossession (.of k)) = true := by
  intro k J K encoded
  have hk : k ≠ 0 := by decide
  have hscale : J.z ≠ 1 := by decide +kernel
  have hJ : J.toPoint = k • G2.generator := by decide +kernel
  have hproof : K.toPoint = Scheme.provePossession k := Jacobian.toPoint_ofPoint _
  have hK : Reachable (.bare .point₁) K.toPoint := by
    rw [reachable_iff, hproof]
    exact Scheme.isValid_sign k _ _
  have hencoded : hashToCurve Tag.message encoded ≠ hashToCurve Tag.possession encoded := by
    decide +kernel
  have hseven : hashToCurve Tag.message [7] ≠ hashToCurve Tag.possession encoded := by
    decide +kernel
  have hpublic : Reachable (.packed .point₂) (PrivateKey.publicKey (.of k)) :=
    reachable_iff.2 (Packed.isFaithful_of (Scheme.isValid_publicKey k))
  have hpacked : Reachable (.packed .point₁) (PrivateKey.provePossession (.of k)) :=
    reachable_iff.2 (Packed.isFaithful_of (Scheme.isValid_sign k _ _))
  obtain ⟨-, -, hkey, hidentity, -, hkeys⟩ := possession_binds_key isPairing_logPairing
  obtain ⟨hproofs, hmessages⟩ := hkey k J hk hJ
  obtain ⟨l, hl, hverify⟩ := hkeys _ hpublic
  have hkl : k = l := Scheme.publicKey_injective (congrArg Packed.element hl)
  have hzero : (Jacobian.infinity : Jacobian Fp2).toPoint = (0 : Scalar) • G2.generator :=
    (Torsion.zero_smul_point G2.base).symm
  exact ⟨⟨isPairing_logPairing, hk, hscale, hJ, hK⟩, (hproofs K hK).2 hproof,
    ⟨mt (hmessages none encoded).1.1 hencoded, mt (hmessages none encoded).2.1 hencoded⟩,
    mt (hmessages none [7]).1.1 hseven, mt (hmessages none [7]).2.1 hseven,
    hidentity .infinity hzero 0,
    (hverify _ hpacked).2 ⟨hkl ▸ hk, hkl ▸ rfl⟩⟩

end BlsBn254
