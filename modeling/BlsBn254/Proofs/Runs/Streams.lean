import BlsBn254.Proofs.Codec.Acceptance
import BlsBn254.Proofs.Runs.Validity

/-!
# Streams of values of every shape

A value is read from a byte string as a whole (`Shape.ofSlice`) or from a stream. For packed
elements these are two ways: the one packs anew what it has read, the other keeps the bytes.
They come to the same, as nothing but the encoding of an element is read
(`Packed.deserialize_eq_ofBytes`). So a stream is read as the byte string at its head is,
and if that is refused, the stream is with the same reason (`streams_and_slices_agree`).

Values of any shapes can be written one after the other (`encodeValues`) and read in turn
(`readValues`). Those that are read are valid, and the stream consists of their encodings
and of what is left (`readValues_eq_ok_iff`).
-/

namespace BlsBn254

/-! ## Two ways to read a packed element -/

/-- Bytes of the right length are never refused for their length. -/
theorem Kind.parse_ne_invalidLength {κ : Kind} {b : Bytes} {m n : ℕ}
    (hb : b.length = (format : Format κ.Element).size) :
    (format : Format κ.Element).parse b ≠ .error (.invalidLength m n) := by
  cases κ with
  | scalar =>
    change Residue.parse b ≠ _
    rw [Residue.parse]
    split
    · simp
    · simp
  | point₁ =>
    change G1.parse b ≠ _
    rw [G1.parse_eq hb]
    exact verdict_ne_invalidLength
  | point₂ =>
    change G2.parse b ≠ _
    rw [G2.parse_eq hb]
    exact verdict_ne_invalidLength

/-- A packed element that is packed anew when it is read is the one that keeps the bytes, and
    both are refused for the same cause. -/
theorem Packed.deserialize_eq_ofBytes {E : Type} [Formatted E] {Valid : E → Prop}
    (h : (format : Format E).IsCanonical Valid) (b : Bytes) :
    deserialize b = (format : Format (Packed E)).ofBytes b := by
  by_cases hb : b.length = (format : Format E).size
  · have hpacked : b.length = (format : Format (Packed E)).size := hb
    rw [deserialize, Format.ofBytes_of_length hb, Format.ofBytes_of_length hpacked]
    change _ = ((format : Format E).parse b).map fun e => (⟨b, e⟩ : Packed E)
    cases hread : (format : Format E).parse b with
    | error cause => rfl
    | ok e =>
      -- The bytes are the encoding of what is read.
      obtain ⟨-, rfl⟩ := (h.parse_eq_ok_iff hb).1 hread
      rfl
  · rw [deserialize, Format.ofBytes, Format.ofBytes, if_neg hb]
    exact (if_neg hb).symm

namespace Shape

/-- The number of bytes of every encoding. -/
def size : Shape → ℕ
  | bare .scalar | packed .scalar => 32
  | bare .point₁ | packed .point₁ => 64
  | bare .point₂ | packed .point₂ => 128

/-- The name under which a stream refuses bytes. -/
def context : Shape → String
  | bare .scalar => "bn254::Scalar"
  | bare .point₁ => "bn254::G1"
  | bare .point₂ => "bn254::G2"
  | packed _ => "bn254"

/-- The value that a byte string as a whole encodes. -/
def ofSlice : (σ : Shape) → Bytes → Except Error σ.Value
  | bare κ, b => (format : Format κ.Element).ofBytes b
  | packed _, b => Packed.deserialize b

theorem size_eq : (σ : Shape) → σ.size = (format : Format σ.Value).size
  | bare .scalar | packed .scalar => rfl
  | bare .point₁ | packed .point₁ => rfl
  | bare .point₂ | packed .point₂ => rfl

theorem context_eq : (σ : Shape) → σ.context = (format : Format σ.Value).label
  | bare .scalar | bare .point₁ | bare .point₂ => rfl
  | packed _ => rfl

theorem ofSlice_eq : (σ : Shape) → (b : Bytes) →
    σ.ofSlice b = (format : Format σ.Value).ofBytes b
  | bare _, _ => rfl
  | packed κ, b => Packed.deserialize_eq_ofBytes κ.canonical b

/-- A byte string as a whole is the encoding of one value at most, and of a valid one. -/
theorem ofSlice_eq_ok_iff {σ : Shape} {b : Bytes} {a : σ.Value} :
    σ.ofSlice b = .ok a ↔ σ.Valid a ∧ b = (format : Format σ.Value).encode a := by
  cases σ with
  | bare κ => exact κ.canonical.ofBytes_eq_ok_iff
  | packed κ =>
    refine (Packed.deserialize_eq_ok_iff κ.canonical).trans ⟨?_, ?_⟩
    · rintro ⟨e, he, rfl, rfl⟩
      exact ⟨Packed.isFaithful_of he, rfl⟩
    · rintro ⟨hk, rfl⟩
      exact ⟨a.element, hk.valid, hk.raw_eq, hk.eq_of_iff.2 rfl⟩

/-- It is refused for its length if this is not the one of the encodings. -/
theorem ofSlice_eq_invalidLength_iff {σ : Shape} {b : Bytes} {m n : ℕ} :
    σ.ofSlice b = .error (.invalidLength m n) ↔
      b.length ≠ σ.size ∧ m = σ.size ∧ n = b.length := by
  rw [size_eq]
  cases σ with
  | bare κ => exact Format.ofBytes_eq_invalidLength_iff Kind.parse_ne_invalidLength
  | packed κ =>
    exact map_eq_error_iff.trans
      (Format.ofBytes_eq_invalidLength_iff Kind.parse_ne_invalidLength)

end Shape

/-! ## Values one after the other -/

/-- The encodings of values, one after the other. -/
def encodeValues (as : List (Σ σ : Shape, σ.Value)) : Bytes :=
  as.flatMap fun a => (format : Format a.1.Value).encode a.2

/-- The values of the given shapes, in turn, at the head of a stream, and the rest of it. -/
def readValues : List Shape → Bytes → Except ReadError (List (Σ σ : Shape, σ.Value) × Bytes)
  | [], b => return ([], b)
  | σ :: σs, b => do
    let (a, b) ← (format : Format σ.Value).read b
    let (as, b) ← readValues σs b
    return (⟨σ, a⟩ :: as, b)

/-- What is read of a stream is a valid value, whose encoding is its head. -/
theorem Shape.read_eq_ok_iff {σ : Shape} {b rest : Bytes} {a : σ.Value} :
    (format : Format σ.Value).read b = .ok (a, rest) ↔
      σ.Valid a ∧ b = (format : Format σ.Value).encode a ++ rest := by
  rw [Format.read_eq_ok_iff]
  simp only [← σ.ofSlice_eq, ofSlice_eq_ok_iff]
  constructor
  · rintro ⟨c, ⟨ha, rfl⟩, rfl⟩
    exact ⟨ha, rfl⟩
  · rintro ⟨ha, rfl⟩
    exact ⟨_, ⟨ha, rfl⟩, rfl⟩

/-- The first value is read before the others. -/
theorem readValues_cons_eq_ok_iff {σ : Shape} {σs : List Shape} {b rest : Bytes}
    {as : List (Σ σ : Shape, σ.Value)} :
    readValues (σ :: σs) b = .ok (as, rest) ↔
      ∃ a others c, (format : Format σ.Value).read b = .ok (a, c) ∧
        readValues σs c = .ok (others, rest) ∧ as = ⟨σ, a⟩ :: others := by
  rw [readValues, bind_eq_ok_iff]
  constructor
  · rintro ⟨⟨a, c⟩, hhead, h⟩
    obtain ⟨⟨others, rest'⟩, htail, h⟩ := bind_eq_ok_iff.1 h
    obtain ⟨rfl, rfl⟩ := Prod.mk.inj (Except.ok.inj h)
    exact ⟨a, others, c, hhead, htail, rfl⟩
  · rintro ⟨a, others, c, hhead, htail, rfl⟩
    exact ⟨(a, c), hhead, bind_eq_ok_iff.2 ⟨(others, rest), htail, rfl⟩⟩

/-- The values read in turn are valid, and the stream begins with their encodings. -/
theorem readValues_eq_ok_iff {as : List (Σ σ : Shape, σ.Value)} {b rest : Bytes} :
    readValues (as.map Sigma.fst) b = .ok (as, rest) ↔
      (∀ a ∈ as, a.1.Valid a.2) ∧ b = encodeValues as ++ rest := by
  induction as generalizing b with
  | nil =>
    constructor
    · intro h
      exact ⟨nofun, (Prod.mk.inj (Except.ok.inj h)).2⟩
    · rintro ⟨-, rfl⟩
      rfl
  | cons a as ih =>
    obtain ⟨σ, a⟩ := a
    rw [List.map_cons, readValues_cons_eq_ok_iff, List.forall_mem_cons, encodeValues,
      List.flatMap_cons, List.append_assoc, ← encodeValues]
    constructor
    · rintro ⟨a', others, c, hhead, htail, h⟩
      cases h
      obtain ⟨ha, rfl⟩ := Shape.read_eq_ok_iff.1 hhead
      obtain ⟨has, rfl⟩ := ih.1 htail
      exact ⟨⟨ha, has⟩, rfl⟩
    · rintro ⟨⟨ha, has⟩, rfl⟩
      exact ⟨a, as, _, Shape.read_eq_ok_iff.2 ⟨ha, rfl⟩, ih.2 ⟨has, rfl⟩, rfl⟩

/-! ## Streams and byte strings as a whole -/

/-- For every shape, a stream is refused as too short if it has fewer bytes than the
    encodings; else with the reason for which its head is refused as a byte string by itself,
    whatever comes after it; else for the number of bytes that remain; and else it is read
    as the value that the byte string is read as, whose encoding it is. A byte string is
    refused for its length if and only if it has another length than the encodings. Values
    of any shapes are read in turn from a stream if and only if they are values that runs
    reach and the stream consists of their encodings and of what is left. -/
theorem streams_and_slices_agree :
    (∀ (σ : Shape) (b : Bytes),
        ((format : Format σ.Value).decode b = .error .endOfBuffer ↔ b.length < σ.size) ∧
        (∀ context reason, (format : Format σ.Value).decode b = .error (.invalid context reason) ↔
          σ.size ≤ b.length ∧ context = σ.context ∧
            ∃ cause, σ.ofSlice (b.take σ.size) = .error cause ∧ reason = cause.reason) ∧
        (∀ n, (format : Format σ.Value).decode b = .error (.extraData n) ↔
          (∃ a, σ.ofSlice (b.take σ.size) = .ok a) ∧ σ.size < b.length ∧
            n = b.length - σ.size) ∧
        (∀ a, (format : Format σ.Value).decode b = .ok a ↔ σ.ofSlice b = .ok a) ∧
        (∀ a, σ.ofSlice b = .ok a →
          b.length = σ.size ∧ (format : Format σ.Value).encode a = b) ∧
        ∀ m n, σ.ofSlice b = .error (.invalidLength m n) ↔
          b.length ≠ σ.size ∧ m = σ.size ∧ n = b.length) ∧
      ∀ (as : List (Σ σ : Shape, σ.Value)) (b rest : Bytes),
        readValues (as.map Sigma.fst) b = .ok (as, rest) ↔
          (∀ a ∈ as, Reachable a.1 a.2) ∧ b = encodeValues as ++ rest := by
  refine ⟨fun σ b => ⟨?_, fun context reason => ?_, fun n => ?_, fun a => ?_, fun a ha => ?_,
    fun m n => Shape.ofSlice_eq_invalidLength_iff⟩, fun as b rest => ?_⟩
  · rw [σ.size_eq, Format.decode_eq_endOfBuffer_iff]
  · rw [σ.size_eq, σ.context_eq, σ.ofSlice_eq, Format.decode_eq_invalid_iff]
  · rw [σ.size_eq, σ.ofSlice_eq, Format.decode_eq_extraData_iff]
  · rw [σ.ofSlice_eq, Format.decode_eq_ok_iff]
  · have hlen := (Format.ofBytes_eq_ok_iff.1 (σ.ofSlice_eq b ▸ ha)).1
    exact ⟨hlen.trans σ.size_eq.symm, (Shape.ofSlice_eq_ok_iff.1 ha).2.symm⟩
  · simp only [reachable_iff, readValues_eq_ok_iff]

/-- A scalar, a public key, the identity signature and a point are read back in turn; and
    sixty-five zeroes are the identity signature and one byte more. The order is refused as a
    private key, also if there are bytes after it, a point off the curve as a point, and a
    point of the twist outside the subgroup as a public key, each with a reason of its own. -/
theorem read_scalar_key_signature :
    let k : PublicKey := .of G2.generator
    let s : Signature := .of 0
    let as : List (Σ σ : Shape, σ.Value) := [⟨.bare .scalar, (5 : Scalar)⟩, ⟨.packed .point₂, k⟩,
      ⟨.packed .point₁, s⟩, ⟨.bare .point₁, G1.generator⟩]
    let zeros := Bytes.zeros 65
    let order := Bytes.ofNat 32 r ++ [0, 0]
    let ones := Bytes.ofNat 32 1 ++ Bytes.ofNat 32 1
    ((∀ a ∈ as, Reachable a.1 a.2) ∧
        readValues (as.map Sigma.fst) (encodeValues as ++ [9]) = .ok (as, [9])) ∧
      (Packed.deserialize (zeros.take 64) = .ok s ∧ s.raw = zeros.take 64 ∧
        (format : Format Signature).decode zeros = .error (.extraData 1)) ∧
      (format : Format PrivateKey).decode order =
        .error (.invalid "bn254" "non-canonical encoding") ∧
      (format : Format G1).decode ones = .error (.invalid "bn254::G1" "point not on curve") ∧
      (format : Format PublicKey).decode (G2.encode G2.outsider.point) =
        .error (.invalid "bn254" "point not in subgroup") := by
  intro k s as zeros order ones
  have hreach : ∀ a ∈ as, Reachable a.1 a.2 := by
    simp only [as, List.forall_mem_cons, reachable_iff]
    exact ⟨trivial, Packed.isFaithful_of (G2.isValid_point G2.base),
      Packed.isFaithful_of G1.isValid_zero, G1.isValid_point G1.base, nofun⟩
  have hs : Packed.deserialize (zeros.take 64) = .ok s := by decide +kernel
  have horder : (Packed.deserialize (order.take 32) : Except Error PrivateKey) =
      .error .nonCanonical := by decide +kernel
  have hones : (format : Format G1).ofBytes (ones.take 64) = .error .notOnCurve := by
    decide +kernel
  have houtsider : (Packed.deserialize ((G2.encode G2.outsider.point).take 128) :
      Except Error PublicKey) = .error .notInSubgroup := by decide +kernel
  obtain ⟨hstreams, hvalues⟩ := streams_and_slices_agree
  have hsignature := hstreams (.packed .point₁) zeros
  have hprivate := hstreams (.packed .scalar) order
  have hpoint := hstreams (.bare .point₁) ones
  have hpublic := hstreams (.packed .point₂) (G2.encode G2.outsider.point)
  exact ⟨⟨hreach, (hvalues as _ [9]).2 ⟨hreach, rfl⟩⟩,
    ⟨hs, ((hstreams (.packed .point₁) (zeros.take 64)).2.2.2.2.1 s hs).2,
      (hsignature.2.2.1 1).2 ⟨⟨s, hs⟩, by decide, by decide⟩⟩,
    (hprivate.2.1 _ _).2 ⟨by decide, rfl, _, horder, rfl⟩,
    (hpoint.2.1 _ _).2 ⟨by decide, rfl, _, hones, rfl⟩,
    (hpublic.2.1 _ _).2 ⟨(G2.length_encode _).ge, rfl, _, houtsider, rfl⟩⟩

end BlsBn254
