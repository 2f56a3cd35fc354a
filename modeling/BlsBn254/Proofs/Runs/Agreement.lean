import BlsBn254.Proofs.Hash.Expansion
import BlsBn254.Proofs.Keys.Aggregate
import BlsBn254.Proofs.Runs.Validity

/-!
# All ways to verify agree

A message is verified under elements, under packed keys, under several of them, and under
keys and signatures that are given by their bytes. There is one computation behind all
these ways (`answer?`): every key is read, and the signature; the keys are added up; the
message is hashed; and the pairings are compared.

This computation is written down with what could break it off: the hash asks for an
expansion that could be too long, for chunks of it that it might not have, and for a point
under a field element that might not be there (`hashToCurve?`). None of that ever happens
(`hashToCurve?_eq`). So of any bytes the answer is yes or no, and it is the same by bytes
and by what they encode (`verification_paths_agree`). Of the product of pairings nothing
is asked.
-/

namespace BlsBn254

/-! ## Hashing, step by step -/

/-- The chunk of index `i`, if the bytes reach to its end. -/
def FieldHash.chunk? (bytes : Bytes) (i : ℕ) : Option Bytes :=
  if chunkLength * (i + 1) ≤ bytes.length then some (chunk bytes i) else none

/-- The image of `t`, if one of its candidates lies under the curve, and if then the image
    is found on it. -/
def CurveMap.image? (t : Fp) : Option G1 := (toPoint? t).filter fun P => P.IsValid

/-- The point that belongs to an expansion, if no step towards it fails. -/
def FieldHash.toPoint? (bytes : Bytes) : Option G1 := do
  let first ← chunk? bytes 0
  let second ← chunk? bytes 1
  let P ← CurveMap.image? (reduce first)
  let Q ← CurveMap.image? (reduce second)
  return P + Q

/-- The point that a message hashes to under a tag, if no step towards it fails. -/
def hashToCurve? (tag message : Bytes) : Option G1 :=
  (Expander.expandMessage message tag (FieldHash.chunkLength * 2)).toOption.bind FieldHash.toPoint?

theorem CurveMap.image?_eq (t : Fp) : image? t = some (toPoint t) := by
  obtain ⟨x, y, h, hon⟩ := exists_toPoint?_eq t
  rw [image?, toPoint, h]
  exact Option.filter_some_pos (decide_eq_true hon)

/-- Bytes that make up two chunks have a point. -/
theorem FieldHash.toPoint?_eq {bytes : Bytes} (h : bytes.length = chunkLength * 2) :
    toPoint? bytes = some (CurveMap.toPoint (reduce (chunk bytes 0)) +
      CurveMap.toPoint (reduce (chunk bytes 1))) := by
  have hfirst : chunk? bytes 0 = some (chunk bytes 0) := if_pos (h ▸ by decide)
  have hsecond : chunk? bytes 1 = some (chunk bytes 1) := if_pos h.ge
  simp only [toPoint?, hfirst, hsecond, Option.bind_eq_bind, Option.bind_some, CurveMap.image?_eq]
  rfl

/-- No step of the hash ever fails. -/
theorem hashToCurve?_eq (tag message : Bytes) :
    hashToCurve? tag message = some (hashToCurve tag message) := by
  have hshort : FieldHash.chunkLength * 2 ≤ 8160 := by decide
  rw [hashToCurve?, (Expander.expandMessage_eq_ok_iff _ _ _).2 ⟨hshort, rfl⟩, Except.toOption,
    Option.bind_some, FieldHash.toPoint?_eq (Expander.length_expand _ _ _), hashToCurve,
    FieldHash.elements]
  simp only [Vector.getElem_ofFn]

/-! ## Keys given by their bytes -/

/-- The keys that byte strings encode are read if each of them is. -/
theorem deserializeKeys_eq_ok_iff {i : ℕ} {kbs : List Bytes} {ks : List PublicKey} :
    deserializeKeys i kbs = .ok ks ↔
      List.Forall₂ (fun kb k => Packed.deserialize kb = .ok k) kbs ks := by
  induction kbs generalizing i ks with
  | nil =>
    rw [deserializeKeys, List.forall₂_nil_left_iff]
    exact ⟨fun h => (Except.ok.inj h).symm, fun h => congrArg _ h.symm⟩
  | cons kb kbs ih =>
    rw [deserializeKeys, List.forall₂_cons_left_iff]
    cases hk : (Packed.deserialize kb : Except Error PublicKey) with
    | error cause => exact ⟨nofun, fun ⟨_, _, h, _⟩ => nomatch h⟩
    | ok k =>
      refine map_eq_ok_iff.trans ⟨?_, ?_⟩
      · rintro ⟨others, hothers, rfl⟩
        exact ⟨k, others, rfl, ih.1 hothers, rfl⟩
      · rintro ⟨k', others, hk', hothers, rfl⟩
        exact ⟨others, ih.2 hothers, congrArg (· :: others) (Except.ok.inj hk')⟩

/-! ## Verification, step by step -/

section Verifier

variable {T : Type} [One T] [DecidableEq T] (pairing : PairingProduct T)

/-- Verifies the signature of bytes under a tag, if the bytes are hashed. -/
def Scheme.verify? (Q : G2) (tag bytes : Bytes) (S : G1) : Option (Except Error Unit) :=
  if Q = 0 then some (.error .invalidPublicKey)
  else (hashToCurve? tag bytes).map fun H =>
    if agrees pairing Q H S then .ok () else .error .invalidSignature

/-- The answer whether a signature of a message verifies under the sum of keys, all given by
    their bytes, if no step towards it fails. -/
def answer? (kbs : List Bytes) (ns : Option Bytes) (message sb : Bytes) : Option Bool :=
  match deserializeKeys 0 kbs, (Packed.deserialize sb : Except Error Signature) with
  | .ok ks, .ok s =>
    (Scheme.verify? pairing (Scheme.aggregate (ks.map Packed.element)) Tag.message
      (Payload.ofMessage ns message) s.element).map Except.isOk
  | _, _ => some false

variable {pairing}

theorem Scheme.verify?_eq (Q : G2) (tag bytes : Bytes) (S : G1) :
    verify? pairing Q tag bytes S = some (verify pairing Q tag bytes S) := by
  rw [verify?, verify, hashToCurve?_eq, Option.map_some]
  exact (apply_ite some _ _ _).symm

variable {ns : Option Bytes} {message : Bytes}

/-- Under several keys the answer is whether the elements verify. -/
theorem value_verifyAggregated (ks : List PublicKey) (s : Signature) :
    (verifyAggregated pairing ks ns message s).value =
      (Scheme.verifyAggregate pairing (ks.map Packed.element) ns message s.element).isOk := by
  rw [verifyAggregated, Recorded.value_bind, PublicKey.value_verify, Scheme.verifyAggregate,
    aggregatePublicKeys, Recorded.value_bind, Recorded.value_pure, Packed.element_of]

/-- Under a list of one key the answer is that under the key. -/
theorem value_verifyAggregated_singleton (k : PublicKey) (s : Signature) :
    (verifyAggregated pairing [k] ns message s).value =
      (k.verify pairing ns message s).value := by
  have hsum : Scheme.aggregate ([k].map Packed.element) = k.element :=
    Point.infinity_add k.element
  rw [value_verifyAggregated, PublicKey.value_verify, Scheme.verifyAggregate, hsum]

/-- By bytes there is always an answer. -/
theorem answer?_eq (kbs : List Bytes) (sb : Bytes) :
    answer? pairing kbs ns message sb =
      some (verifyAggregatedBytes pairing kbs ns message sb).value := by
  rw [answer?, verifyAggregatedBytes]
  cases deserializeKeys 0 kbs with
  | error e => rfl
  | ok ks =>
    dsimp only
    rw [withSignature]
    cases (Packed.deserialize sb : Except Error Signature) with
    | error cause => rfl
    | ok s =>
      dsimp only
      rw [Scheme.verify?_eq, Option.map_some, value_verifyAggregated, Scheme.verifyAggregate,
        Scheme.verifyMessage]

/-! ## By bytes or not -/

/-- Bytes are accepted if all of them are read, and the elements verify. -/
theorem verifyAggregatedBytes_eq_true_iff {kbs : List Bytes} {sb : Bytes} :
    (verifyAggregatedBytes pairing kbs ns message sb).value = true ↔
      ∃ (ks : List PublicKey) (s : Signature),
        List.Forall₂ (fun kb k => Packed.deserialize kb = .ok k) kbs ks ∧
          Packed.deserialize sb = .ok s ∧
          (verifyAggregated pairing ks ns message s).value = true := by
  simp only [← deserializeKeys_eq_ok_iff (i := 0)]
  rw [verifyAggregatedBytes]
  cases deserializeKeys 0 kbs with
  | error e => exact ⟨nofun, fun ⟨_, _, hks, _⟩ => nomatch hks⟩
  | ok ks =>
    refine withSignature_eq_true_iff.trans ⟨fun ⟨s, hs, h⟩ => ⟨ks, s, rfl, hs, h⟩, ?_⟩
    rintro ⟨ks', s, hks, hs, h⟩
    exact ⟨s, hs, Except.ok.inj hks ▸ h⟩

/-- A list of one key given by its bytes is that key given by its bytes. -/
theorem value_verifyAggregatedBytes_singleton (kb sb : Bytes) :
    (verifyAggregatedBytes pairing [kb] ns message sb).value =
      (verifyBytes pairing kb ns message sb).value := by
  rw [Bool.eq_iff_iff, verifyAggregatedBytes_eq_true_iff, verifyBytes_eq_true_iff]
  constructor
  · rintro ⟨ks, s, hks, hs, h⟩
    cases hks with
    | cons hk hnil =>
      cases hnil
      exact ⟨_, s, hk, hs, (value_verifyAggregated_singleton _ s).symm.trans h⟩
  · rintro ⟨k, s, hk, hs, h⟩
    exact ⟨[k], s, .cons hk .nil, hs, (value_verifyAggregated_singleton k s).trans h⟩

/-- Keys and signatures that runs reach are the same by their bytes. -/
theorem verifyAggregatedBytes_serialize {ks : List PublicKey} {s : Signature}
    (hks : ∀ k ∈ ks, Reachable (.packed .point₂) k) (hs : Reachable (.packed .point₁) s) :
    verifyAggregatedBytes pairing (ks.map Packed.serialize) ns message s.serialize =
      verifyAggregated pairing ks ns message s := by
  have hkeys : deserializeKeys 0 (ks.map Packed.serialize) = .ok ks :=
    deserializeKeys_eq_ok_iff.2 <| List.forall₂_map_left_iff.2 <| List.forall₂_same.2 fun k hk =>
      (hks k hk).valid.deserialize_serialize canonical_point₂
  have hsign : Packed.deserialize s.serialize = .ok s :=
    hs.valid.deserialize_serialize canonical_point₁
  rw [verifyAggregatedBytes, hkeys]
  dsimp only
  rw [withSignature, hsign]

/-- Byte strings are accepted in the place of keys and of a signature if and only if all of
    them are read and the elements verify, as such; and there is always an answer, whatever
    the bytes. Keys and a signature that runs reach get the same answer, with the same log,
    by their encodings. A list of one byte string gets the answer of that byte string as a
    key. A public key says yes if and only if the elements verify. -/
theorem verification_paths_agree (pairing : PairingProduct T) (ns : Option Bytes)
    (message : Bytes) :
    (∀ (kbs : List Bytes) (sb : Bytes),
        ((verifyAggregatedBytes pairing kbs ns message sb).value = true ↔
          ∃ (ks : List PublicKey) (s : Signature),
            List.Forall₂ (fun kb k => Packed.deserialize kb = .ok k) kbs ks ∧
              Packed.deserialize sb = .ok s ∧
              Scheme.verifyAggregate pairing (ks.map Packed.element) ns message s.element =
                .ok ()) ∧
        answer? pairing kbs ns message sb =
          some (verifyAggregatedBytes pairing kbs ns message sb).value) ∧
      (∀ (ks : List PublicKey) (s : Signature), (∀ k ∈ ks, Reachable (.packed .point₂) k) →
        Reachable (.packed .point₁) s →
          verifyAggregatedBytes pairing (ks.map Packed.serialize) ns message s.serialize =
            verifyAggregated pairing ks ns message s) ∧
      (∀ kb sb : Bytes,
        (verifyAggregatedBytes pairing [kb] ns message sb).value =
            (verifyBytes pairing kb ns message sb).value ∧
          answer? pairing [kb] ns message sb =
            some (verifyBytes pairing kb ns message sb).value) ∧
      ∀ (k : PublicKey) (s : Signature), (k.verify pairing ns message s).value = true ↔
        Scheme.verifyMessage pairing k.element ns message s.element = .ok () := by
  refine ⟨fun kbs sb => ⟨?_, answer?_eq kbs sb⟩,
    fun ks s hks hs => verifyAggregatedBytes_serialize hks hs,
    fun kb sb => ⟨value_verifyAggregatedBytes_singleton kb sb, ?_⟩,
    fun k s => PublicKey.verify_eq_true_iff⟩
  · rw [verifyAggregatedBytes_eq_true_iff]
    simp only [value_verifyAggregated, isOk_eq_true_iff]
  · rw [answer?_eq, value_verifyAggregatedBytes_singleton]

end Verifier

/-- The aggregate of the signatures of the private keys one and two is accepted under their
    public keys, and under the encodings of these. With a key of one byte it is refused. -/
theorem verification_paths_one_two :
    let ks : List PublicKey := publicKeys [.of 1, .of 2]
    let s : Signature := .of (Scheme.signMessage 3 none [7])
    ((∀ k ∈ ks, Reachable (.packed .point₂) k) ∧ Reachable (.packed .point₁) s) ∧
      (verifyAggregated logPairing ks none [7] s).value = true ∧
      (verifyAggregatedBytes logPairing (ks.map Packed.serialize) none [7] s.serialize).value =
        true ∧
      answer? logPairing (ks.map Packed.serialize) none [7] s.serialize = some true ∧
      answer? logPairing [(0 : G2).encode, [1]] none [7] s.serialize = some false := by
  intro ks s
  have hks : ∀ k ∈ ks, Reachable (.packed .point₂) k :=
    List.forall_mem_map.2 fun k _ => reachable_iff.2 <| Packed.isFaithful_of <|
      Scheme.isValid_publicKey k.element
  have hsign : (Scheme.signMessage 3 none [7]).IsValid := Scheme.isValid_sign 3 _ _
  have hs : Reachable (.packed .point₁) s := reachable_iff.2 (Packed.isFaithful_of hsign)
  have hsum : ([.of 1, .of 2].map (Packed.element : PrivateKey → Scalar)).sum = 3 := by decide
  have hyes : (verifyAggregated logPairing ks none [7] s).value = true := by
    rw [verifyAggregated_eq_true_iff isPairing_logPairing _ none [7] hsign, hsum]
    exact ⟨by decide, rfl⟩
  have hshort : (Packed.deserialize [1] : Except Error PublicKey) =
      .error (.invalidLength 128 1) := by decide
  obtain ⟨hbytes, hkeys, -, -⟩ := verification_paths_agree logPairing none [7]
  have hsame := congrArg Recorded.value (hkeys ks s hks hs)
  have hno : (verifyAggregatedBytes logPairing [(0 : G2).encode, [1]] none [7]
      s.serialize).value = false := by
    rw [← Bool.not_eq_true, (hbytes _ _).1]
    rintro ⟨ls, -, hls, -⟩
    cases hls with
    | cons _ hls =>
      cases hls with
      | cons h _ => exact nomatch hshort.symm.trans h
  exact ⟨⟨hks, hs⟩, hyes, hsame.trans hyes,
    (hbytes _ _).2.trans (congrArg some (hsame.trans hyes)),
    (hbytes _ _).2.trans (congrArg some hno)⟩

end BlsBn254
