import BlsBn254.Proofs.Keys.Verifier

/-!
# What verifiers accept as an aggregate

The public keys of several private keys add up to the public key of their sum, and the
signatures of a message to the signature of the sum, both of them packed
(`aggregatePublicKeys_publicKeys`, `aggregateSignatures_sign`). So verification under
several keys accepts the aggregate of their signatures and nothing else, unless the keys
add up to zero (`verifyAggregated_iff_aggregate`). It makes no difference which keys
signed if their sums agree.
-/

namespace BlsBn254

/-- The public keys add up to the public key of the sum. -/
theorem aggregatePublicKeys_publicKeys (ks : List PrivateKey) :
    (aggregatePublicKeys (publicKeys ks)).value =
      .of (Scheme.publicKey (ks.map Packed.element).sum) := by
  rw [← Scheme.aggregate_publicKey, aggregatePublicKeys, Recorded.value_bind, Recorded.value_pure,
    publicKeys, List.map_map, List.map_map]
  rfl

/-- The signatures of a message add up to the signature of the sum. -/
theorem aggregateSignatures_sign (ks : List PrivateKey) (ns : Option Bytes) (message : Bytes) :
    (aggregateSignatures (ks.map fun k => k.sign ns message)).value =
      .of (Scheme.signMessage (ks.map Packed.element).sum ns message) := by
  rw [← Scheme.aggregate_signMessage, aggregateSignatures, Recorded.value_bind, Recorded.value_pure,
    List.map_map, List.map_map]
  rfl

section Verifier

variable {T : Type} [CommMonoid T] [DecidableEq T] {pairing : PairingProduct T}

/-- Verification under several keys is that under the key of their sum. -/
theorem verifyAggregated_eq_true_iff (h : IsPairing pairing) (ks : List PrivateKey)
    (ns : Option Bytes) (message : Bytes) {s : Signature} (hs : s.element.IsValid) :
    (verifyAggregated pairing (publicKeys ks) ns message s).value = true ↔
      (ks.map Packed.element).sum ≠ 0 ∧
        s.element = Scheme.signMessage (ks.map Packed.element).sum ns message := by
  rw [verifyAggregated, Recorded.value_bind, aggregatePublicKeys_publicKeys,
    PublicKey.verify_eq_true_iff]
  exact Scheme.verifyMessage_eq_ok_iff h _ ns message hs

/-- Verification under several keys accepts the aggregate of their signatures and nothing
    else, unless the keys add up to zero. So it accepts the aggregate of the signatures of
    other keys if and only if these have the same sum, or the message hashes to the
    identity. The reason of a refusal is the key if the keys add up to zero, whatever the
    signature, and in all other cases the signature. -/
theorem verifyAggregated_iff_aggregate (h : IsPairing pairing) (ks : List PrivateKey)
    (ns : Option Bytes) (message : Bytes) :
    (∀ s : Signature, s.IsFaithful G1.IsValid →
        ((verifyAggregated pairing (publicKeys ks) ns message s).value = true ↔
          (ks.map Packed.element).sum ≠ 0 ∧
            s = (aggregateSignatures (ks.map fun k => k.sign ns message)).value)) ∧
      (∀ ls : List PrivateKey,
        (verifyAggregated pairing (publicKeys ks) ns message
            (aggregateSignatures (ls.map fun k => k.sign ns message)).value).value = true ↔
          (ks.map Packed.element).sum ≠ 0 ∧
            ((ls.map Packed.element).sum = (ks.map Packed.element).sum ∨
              hashToCurve Tag.message (Payload.ofMessage ns message) = 0)) ∧
      (∀ S : G1, Scheme.verifyAggregate pairing (ks.map fun k => Scheme.publicKey k.element) ns
          message S = .error .invalidPublicKey ↔ (ks.map Packed.element).sum = 0) ∧
      ∀ S : G1, S.IsValid →
        (Scheme.verifyAggregate pairing (ks.map fun k => Scheme.publicKey k.element) ns message S =
            .error .invalidSignature ↔
          (ks.map Packed.element).sum ≠ 0 ∧
            S ≠ Scheme.aggregate (ks.map fun k => Scheme.signMessage k.element ns message)) ∧
        (Scheme.verifyAggregate pairing (ks.map fun k => Scheme.publicKey k.element) ns message S =
            .ok () ↔
          (ks.map Packed.element).sum ≠ 0 ∧
            S = Scheme.aggregate (ks.map fun k => Scheme.signMessage k.element ns message)) := by
  have hkeys : (ks.map fun k => Scheme.publicKey k.element) =
      (ks.map Packed.element).map Scheme.publicKey := by
    rw [List.map_map]
    rfl
  have hsigns : (ks.map fun k => Scheme.signMessage k.element ns message) =
      (ks.map Packed.element).map fun k => Scheme.signMessage k ns message := by
    rw [List.map_map]
    rfl
  rw [hkeys, hsigns]
  refine ⟨fun s hs => ?_, fun ls => ?_, fun S => ?_, fun S hS => ⟨?_, ?_⟩⟩
  · rw [verifyAggregated_eq_true_iff h ks ns message hs.valid, aggregateSignatures_sign,
      hs.eq_of_iff]
  · -- The aggregate is the signature of the other sum.
    have hvalid := Scheme.isValid_sign (ls.map Packed.element).sum Tag.message
      (Payload.ofMessage ns message)
    rw [aggregateSignatures_sign, verifyAggregated_eq_true_iff h ks ns message hvalid]
    exact and_congr_right fun _ => Scheme.sign_eq_sign_iff
  · exact Scheme.verifyAggregate_eq_invalidPublicKey_iff _ ns message S
  · exact Scheme.verifyAggregate_eq_invalidSignature_iff h _ ns message hS
  · exact Scheme.verifyAggregate_eq_ok_iff h _ ns message hS

end Verifier

/-- The aggregate of the signatures of the private keys one and two verifies under their
    public keys; keys that cancel out are refused. -/
theorem verifyAggregated_one_two :
    IsPairing logPairing ∧
      (aggregateSignatures
        ([.of 1, .of 2].map fun k : PrivateKey => k.sign none [7])).value.IsFaithful G1.IsValid ∧
      (verifyAggregated logPairing (publicKeys [.of 1, .of 2]) none [7] (aggregateSignatures
        ([.of 1, .of 2].map fun k : PrivateKey => k.sign none [7])).value).value = true ∧
      Scheme.verifyAggregate logPairing [Scheme.publicKey 1, Scheme.publicKey (-1)] none [7] 0 =
        .error .invalidPublicKey := by
  have hs : (aggregateSignatures
      ([.of 1, .of 2].map fun k : PrivateKey => k.sign none [7])).value.IsFaithful G1.IsValid := by
    rw [aggregateSignatures_sign]
    exact Packed.isFaithful_of (Scheme.isValid_sign _ _ _)
  have h := verifyAggregated_iff_aggregate isPairing_logPairing [.of 1, .of 2] none [7]
  have h' := verifyAggregated_iff_aggregate isPairing_logPairing [.of 1, .of (-1)] none [7]
  exact ⟨isPairing_logPairing, hs, (h.1 _ hs).2 ⟨by decide, rfl⟩, (h'.2.2.1 0).2 (by decide)⟩

end BlsBn254
