import BlsBn254.Proofs.Scheme.Verification

/-!
# Keys and signatures are linear in the secret

The public key of a sum of private keys is the sum of the public keys, and the public key
of a product the product of the public key by the other factor; so for the signatures of
the same bytes (`Scheme.linear_in_secret`). The sums are those of residues, which begin
anew at `r`; that the points do the same is due to their order.

A public key has one private key. So has a signature, unless the bytes hash to the identity
(`Scheme.sign_injective_iff`).
-/

namespace BlsBn254.Scheme

/-! ## Sums -/

/-- The aggregate of scalars is their sum, -/
theorem aggregate_scalars (ks : List Scalar) : aggregate ks = ks.sum := List.sum_eq_foldl.symm

/-- the residue of the sum of the numbers. -/
theorem val_aggregate (ks : List Scalar) :
    (aggregate ks).val = (ks.map Residue.val).sum % r := by
  rw [aggregate_scalars]
  induction ks with
  | nil => rfl
  | cons k ks ih => rw [List.sum_cons, Residue.val_add, ih, List.map_cons, List.sum_cons,
      Nat.add_mod_mod]

/-! ## Products -/

/-- The public key of a product is the product of the public key. -/
theorem publicKey_mul (k l : Scalar) : publicKey (k * l) = l • publicKey k := by
  rw [mul_comm, publicKey_def, publicKey_def]
  exact Torsion.mul_smul_point l k G2.base

/-- The signature by a product is the product of the signature. -/
theorem sign_mul (k l : Scalar) (tag bytes : Bytes) :
    sign (k * l) tag bytes = l • sign k tag bytes := by
  obtain ⟨x, hx⟩ := G1.isValid_iff.1 (isValid_hashToCurve tag bytes)
  rw [mul_comm, sign, sign, ← hx]
  exact Torsion.mul_smul_point l k x

/-! ## Different secrets -/

/-- Different private keys give different signatures, unless the bytes hash to the
    identity. -/
theorem sign_injective_iff {tag bytes : Bytes} :
    (Function.Injective fun k => sign k tag bytes) ↔ hashToCurve tag bytes ≠ 0 := by
  constructor
  · -- All private keys would give the signature of zero.
    intro hinj hzero
    exact zero_ne_one (hinj (sign_eq_sign_iff.2 (.inr hzero) : sign 0 tag bytes = sign 1 tag bytes))
  · intro hne k l h
    exact (sign_eq_sign_iff.1 h).resolve_right hne

/-- Keys and signatures are linear in the private key: to the sum of private keys, the
    residue of the sum of the numbers, belong the aggregates of the public keys and of the
    signatures, and to a product of two the products by either of the public key and of the
    signature of the other. Public keys have one private key each, and so have signatures
    precisely if the bytes do not hash to the identity. -/
theorem linear_in_secret :
    (∀ ks : List Scalar, (aggregate ks).val = (ks.map Residue.val).sum % r ∧
        publicKey (aggregate ks) = aggregate (ks.map publicKey) ∧
        (∀ tag bytes, sign (aggregate ks) tag bytes =
          aggregate (ks.map fun k => sign k tag bytes)) ∧
        ∀ ns message, signMessage (aggregate ks) ns message =
          aggregate (ks.map fun k => signMessage k ns message)) ∧
      (∀ k l : Scalar, publicKey (k * l) = l • publicKey k ∧
        (∀ tag bytes, sign (k * l) tag bytes = l • sign k tag bytes) ∧
        ∀ ns message, signMessage (k * l) ns message = l • signMessage k ns message) ∧
      Function.Injective publicKey ∧
      (∀ tag bytes, (Function.Injective fun k => sign k tag bytes) ↔ hashToCurve tag bytes ≠ 0) ∧
      ∀ ns message, (Function.Injective fun k => signMessage k ns message) ↔
        hashToCurve Tag.message (Payload.ofMessage ns message) ≠ 0 := by
  refine ⟨fun ks => ?_, fun k l => ?_, publicKey_injective, fun _ _ => sign_injective_iff,
    fun _ _ => sign_injective_iff⟩
  · refine ⟨val_aggregate ks, ?_⟩
    rw [aggregate_scalars]
    exact ⟨(aggregate_publicKey ks).symm, fun tag bytes => (aggregate_sign ks tag bytes).symm,
      fun ns message => (aggregate_signMessage ks ns message).symm⟩
  · exact ⟨publicKey_mul k l, sign_mul k l, fun ns message => sign_mul k l _ _⟩

/-- The message `7` does not hash to the identity, so no two private keys sign it alike. -/
theorem sign_injective_seven :
    hashToCurve Tag.message (Payload.ofMessage none [7]) ≠ 0 ∧
      Function.Injective fun k => signMessage k none [7] := by
  have hne : hashToCurve Tag.message (Payload.ofMessage none [7]) ≠ 0 := by decide +kernel
  exact ⟨hne, (linear_in_secret.2.2.2.2 none [7]).2 hne⟩

end BlsBn254.Scheme
