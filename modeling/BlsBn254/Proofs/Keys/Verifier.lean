import BlsBn254.Proofs.Scheme.Verification

/-!
# What verifiers accept

Verification of bytes says yes to the encodings of a public key other than the identity
and of the signature of its private key, and to nothing else
(`verifyBytes_iff_signature`). So a signature has no second form, in which someone else
could pass it on.

That follows from what verification does with the elements, as bytes are read only if
they are the encoding of a valid element, and what is read is kept together with that
encoding (`Packed.IsFaithful`).
-/

namespace BlsBn254

/-! ## Packed elements -/

/-- A packed element is valid and kept together with its own encoding, as packing and
    reading leave it. -/
structure Packed.IsFaithful {E : Type} [Formatted E] (Valid : E → Prop) (k : Packed E) : Prop where
  /-- The element is valid. -/
  valid : Valid k.element
  /-- The bytes are its encoding. -/
  raw_eq : k.raw = (format : Format E).encode k.element

namespace Packed

variable {E : Type} [Formatted E] {Valid : E → Prop}

theorem isFaithful_of {e : E} (he : Valid e) : (of e).IsFaithful Valid := ⟨he, rfl⟩

/-- A faithful element is the packing of an element if it has this element. -/
theorem IsFaithful.eq_of_iff {k : Packed E} (hk : k.IsFaithful Valid) {e : E} :
    k = of e ↔ k.element = e := by
  constructor
  · rintro rfl
    rfl
  · rintro rfl
    rw [of, ← hk.raw_eq]

theorem serialize_of_point₁ (S : G1) : (of S).serialize = S.encode := rfl

theorem serialize_of_point₂ (Q : G2) : (of Q).serialize = Q.encode := rfl

/-- Packed elements that are read from bytes as a whole are faithful, -/
theorem isFaithful_of_deserialize (h : (format : Format E).IsCanonical Valid) {b : Bytes}
    {k : Packed E} (hk : deserialize b = .ok k) : k.IsFaithful Valid := by
  obtain ⟨e, he, -, rfl⟩ := (deserialize_eq_ok_iff h).1 hk
  exact isFaithful_of he

/-- and so are those that are read from a stream, which keep the bytes read. -/
theorem isFaithful_of_parse (h : (format : Format E).IsCanonical Valid) {b : Bytes}
    (hb : b.length = (format : Format E).size) {k : Packed E}
    (hk : (format : Format (Packed E)).parse b = .ok k) : k.IsFaithful Valid := by
  obtain ⟨e, hread, rfl⟩ := map_eq_ok_iff.1 hk
  obtain ⟨he, hbe⟩ := (h.parse_eq_ok_iff hb).1 hread
  exact ⟨he, hbe⟩

end Packed

/-- The bytes of a signature are the encoding of its point. -/
theorem serialize_sign (k : Scalar) (ns : Option Bytes) (message : Bytes) :
    (PrivateKey.sign (.of k) ns message).serialize = (Scheme.signMessage k ns message).encode := by
  rw [PrivateKey.sign, Packed.serialize_of_point₁, Packed.element_of]

/-- The bytes of a public key are the encoding of its point. -/
theorem serialize_publicKey (k : Scalar) :
    (PrivateKey.publicKey (.of k)).serialize = (Scheme.publicKey k).encode := by
  rw [PrivateKey.publicKey, Packed.serialize_of_point₂, Packed.element_of]

section Readers

variable {T : Type} [One T] [DecidableEq T] {pairing : PairingProduct T}

/-- Verification says yes if nothing is wrong. -/
theorem isOk_eq_true_iff {x : Except Error Unit} : x.isOk = true ↔ x = .ok () := by
  cases x with
  | error cause => exact ⟨nofun, nofun⟩
  | ok u => exact ⟨fun _ => rfl, fun _ => rfl⟩

/-- A verifier says whether the elements verify. -/
theorem PublicKey.value_verify (k : PublicKey) (ns : Option Bytes) (message : Bytes)
    (s : Signature) : (k.verify pairing ns message s).value =
      (Scheme.verifyMessage pairing k.element ns message s.element).isOk := by
  rw [verify]
  cases Scheme.verifyMessage pairing k.element ns message s.element with
  | error cause => rfl
  | ok u => rfl

theorem PublicKey.verify_eq_true_iff {k : PublicKey} {ns : Option Bytes} {message : Bytes}
    {s : Signature} : (k.verify pairing ns message s).value = true ↔
      Scheme.verifyMessage pairing k.element ns message s.element = .ok () := by
  rw [value_verify, isOk_eq_true_iff]

/-! ## Bytes -/

/-- Bytes are accepted in the place of a signature if they are read as one that is. -/
theorem withSignature_eq_true_iff {b : Bytes} {verify : Signature → Logged Bool} :
    (withSignature b verify).value = true ↔
      ∃ s, Packed.deserialize b = .ok s ∧ (verify s).value = true := by
  rw [withSignature]
  cases (Packed.deserialize b : Except Error Signature) with
  | error cause => exact ⟨nofun, fun ⟨_, hs, _⟩ => nomatch hs⟩
  | ok s => exact ⟨fun h => ⟨s, rfl, h⟩, fun ⟨_, hs, h⟩ => Except.ok.inj hs ▸ h⟩

/-- Bytes verify if both are read, and what is read verifies. -/
theorem verifyBytes_eq_true_iff {kb sb : Bytes} {ns : Option Bytes} {message : Bytes} :
    (verifyBytes pairing kb ns message sb).value = true ↔
      ∃ (k : PublicKey) (s : Signature), Packed.deserialize kb = .ok k ∧
        Packed.deserialize sb = .ok s ∧ (k.verify pairing ns message s).value = true := by
  rw [verifyBytes]
  cases (Packed.deserialize kb : Except Error PublicKey) with
  | error cause => exact ⟨nofun, fun ⟨_, _, hk, _⟩ => nomatch hk⟩
  | ok k =>
    refine withSignature_eq_true_iff.trans ⟨fun ⟨s, hs, h⟩ => ⟨k, s, rfl, hs, h⟩, ?_⟩
    rintro ⟨k', s, hk, hs, h⟩
    exact ⟨s, hs, Except.ok.inj hk ▸ h⟩

end Readers

section Verifier

variable {T : Type} [CommMonoid T] [DecidableEq T] {pairing : PairingProduct T}

/-- Bytes verify if they are those of the public key of a private key other than zero,
    and of its signature. -/
theorem verifyBytes_eq_true_iff_sign (h : IsPairing pairing) {kb sb : Bytes} {ns : Option Bytes}
    {message : Bytes} : (verifyBytes pairing kb ns message sb).value = true ↔
      ∃ k : Scalar, k ≠ 0 ∧ kb = (Scheme.publicKey k).encode ∧
        sb = (Scheme.signMessage k ns message).encode := by
  rw [verifyBytes_eq_true_iff]
  constructor
  · -- What is read is a pair of points of the groups, so the key has a private key.
    rintro ⟨_, _, hk, hs, hverify⟩
    obtain ⟨Q, hQ, rfl, rfl⟩ := (Packed.deserialize_eq_ok_iff canonical_point₂).1 hk
    obtain ⟨S, hS, rfl, rfl⟩ := (Packed.deserialize_eq_ok_iff canonical_point₁).1 hs
    obtain ⟨k, rfl⟩ := Scheme.isValid_iff_publicKey.1 hQ
    rw [PublicKey.verify_eq_true_iff] at hverify
    obtain ⟨hk, hsign⟩ := (Scheme.verifyMessage_eq_ok_iff h k ns message hS).1 hverify
    exact ⟨k, hk, rfl, congrArg G1.encode hsign⟩
  · rintro ⟨k, hk, rfl, rfl⟩
    have hsign := Scheme.isValid_sign k Tag.message (Payload.ofMessage ns message)
    refine ⟨.of (Scheme.publicKey k), .of (Scheme.signMessage k ns message),
      (Packed.deserialize_eq_ok_iff canonical_point₂).2 ⟨_, Scheme.isValid_publicKey k, rfl, rfl⟩,
      (Packed.deserialize_eq_ok_iff canonical_point₁).2 ⟨_, hsign, rfl, rfl⟩, ?_⟩
    rw [PublicKey.verify_eq_true_iff]
    exact (Scheme.verifyMessage_eq_ok_iff h k ns message hsign).2 ⟨hk, rfl⟩

/-- Bytes verify if and only if they are the encoding of the product of the generator by
    a scalar other than zero and the signature of its private key. So honest signatures
    verify; under every key other than the identity exactly one byte string does; and
    nothing does under the identity, nor of what is not an encoding. -/
theorem verifyBytes_iff_signature (h : IsPairing pairing) (ns : Option Bytes) (message : Bytes) :
    (∀ kb sb : Bytes, (verifyBytes pairing kb ns message sb).value = true ↔
        ∃ k : Scalar, k ≠ 0 ∧ kb = (k • G2.generator).encode ∧
          sb = (PrivateKey.sign (.of k) ns message).serialize) ∧
      (∀ k : Scalar, k ≠ 0 →
        (verifyBytes pairing (PrivateKey.publicKey (.of k)).serialize ns message
          (PrivateKey.sign (.of k) ns message).serialize).value = true) ∧
      (∀ Q : G2, Q.IsValid → Q ≠ 0 →
        ∃! sb, (verifyBytes pairing Q.encode ns message sb).value = true) ∧
      (∀ sb, (verifyBytes pairing (0 : G2).encode ns message sb).value = false) ∧
      ∀ kb sb : Bytes, ((∀ k : PublicKey, Packed.deserialize kb ≠ .ok k) ∨
          ∀ s : Signature, Packed.deserialize sb ≠ .ok s) →
        (verifyBytes pairing kb ns message sb).value = false := by
  simp only [serialize_sign, serialize_publicKey, ← Scheme.publicKey_def]
  refine ⟨fun kb sb => verifyBytes_eq_true_iff_sign h, fun k hk => ?_, fun Q hQ hne => ?_,
    fun sb => ?_, fun kb sb hbad => ?_⟩
  · exact (verifyBytes_eq_true_iff_sign h).2 ⟨k, hk, rfl, rfl⟩
  · obtain ⟨k, rfl⟩ := Scheme.isValid_iff_publicKey.1 hQ
    refine ⟨(Scheme.signMessage k ns message).encode, ?_, fun sb hsb => ?_⟩
    · exact (verifyBytes_eq_true_iff_sign h).2 ⟨k, mt Scheme.publicKey_eq_zero_iff.2 hne, rfl, rfl⟩
    · -- A private key with the same public key is the same.
      obtain ⟨l, -, hkl, rfl⟩ := (verifyBytes_eq_true_iff_sign h).1 hsb
      have hpub := canonical_point₂.encode_injOn (Scheme.isValid_publicKey k)
        (Scheme.isValid_publicKey l) hkl
      rw [Scheme.publicKey_injective hpub]
  · rw [← Bool.not_eq_true, verifyBytes_eq_true_iff_sign h]
    rintro ⟨k, hk, hzero, -⟩
    have hpub : 0 = Scheme.publicKey k :=
      canonical_point₂.encode_injOn G2.isValid_zero (Scheme.isValid_publicKey k) hzero
    exact hk (Scheme.publicKey_eq_zero_iff.1 hpub.symm)
  · rw [← Bool.not_eq_true, verifyBytes_eq_true_iff]
    rintro ⟨k, s, hk, hs, -⟩
    rcases hbad with hbad | hbad
    · exact hbad k hk
    · exact hbad s hs

end Verifier

/-- The signature of the private key one verifies under the generator, and not under
    the identity. -/
theorem verifyBytes_generator :
    IsPairing logPairing ∧
      (verifyBytes logPairing G2.generator.encode (some [1]) [2, 3]
        (PrivateKey.sign (.of 1) (some [1]) [2, 3]).serialize).value = true ∧
      (verifyBytes logPairing (0 : G2).encode (some [1]) [2, 3]
        (PrivateKey.sign (.of 1) (some [1]) [2, 3]).serialize).value = false := by
  have h := verifyBytes_iff_signature isPairing_logPairing (some [1]) [2, 3]
  have hone : G2.generator = (1 : Scalar) • G2.generator := (Torsion.one_smul_point G2.base).symm
  exact ⟨isPairing_logPairing, (h.1 _ _).2 ⟨1, one_ne_zero, congrArg G2.encode hone, rfl⟩,
    h.2.2.2.1 _⟩

end BlsBn254
