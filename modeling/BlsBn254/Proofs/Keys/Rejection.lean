import BlsBn254.Proofs.Keys.Text
import BlsBn254.Proofs.Runs.Agreement

/-!
# What the log says of a rejection

Verification answers no for the first thing that is wrong, and reports it by a single
event of the debug level. Of bytes, that is the first key that is malformed
(`IsFirstFault`), then the signature, then the sum of the keys, which must not be the
identity, and last the signature under that sum. A yes is reported by no such event
(`Logged.IsExplained`), so the log tells the answers apart.

What is written of an event is its level, its message and its fields (`Event.entry`).
For every verification of bytes, the entries of the log are known from what the bytes
are read as (`log_names_first_cause`).
-/

namespace BlsBn254

/-! ## Entries of a log -/

/-- What is written of an event: its level, its message and its fields. -/
def Event.entry (e : Event) : String × String × List (String × String) :=
  (e.level.name, e.message, e.fields)

namespace Logged

variable {α : Type}

/-- What is written of a log. -/
def entries (x : Logged α) : List (String × String × List (String × String)) :=
  x.events.map Event.entry

/-- The log has a reason for a no, and none for a yes. -/
def IsExplained (x : Logged Bool) : Prop :=
  x.value = true ↔ ∀ e ∈ x.events, e.level ≠ .debug

theorem isExplained_yes : (pure true : Logged Bool).IsExplained :=
  iff_of_true rfl fun _ he => absurd he List.not_mem_nil

/-- A no with a reason is explained, -/
theorem isExplained_no {e : Event} (he : e.level = .debug) :
    IsExplained (Recorded.report e >>= fun _ => pure false) :=
  iff_of_false Bool.false_ne_true fun h => h e List.mem_cons_self he

/-- and an explained answer stays so after a computation that gives no reason. -/
theorem IsExplained.bind {x : Logged α} {f : α → Logged Bool} (hf : (f x.value).IsExplained)
    (hx : ∀ e ∈ x.events, e.level ≠ .debug) : (x >>= f).IsExplained := by
  rw [IsExplained, Recorded.value_bind, Recorded.forall_events_bind, and_iff_right hx]
  exact hf

end Logged

/-! ## The first fault among keys -/

/-- The key at the position `i` is malformed for the given cause, and none before it is
    malformed. -/
structure IsFirstFault (kbs : List Bytes) (i : ℕ) (cause : Error) : Prop where
  /-- The key at the position is not read. -/
  fault : ∃ kb, kbs[i]? = some kb ∧
    (Packed.deserialize kb : Except Error PublicKey) = .error cause
  /-- Every key before it is. -/
  before : ∀ j < i, ∀ kb, kbs[j]? = some kb → ∃ k : PublicKey, Packed.deserialize kb = .ok k

namespace IsFirstFault

variable {kb : Bytes} {kbs : List Bytes} {i : ℕ} {cause : Error}

theorem not_nil : ¬IsFirstFault [] i cause := by
  rintro ⟨⟨kb, hkb, -⟩, -⟩
  exact nomatch hkb

/-- The first key has the first fault if it is malformed, -/
theorem cons_zero_iff : IsFirstFault (kb :: kbs) 0 cause ↔
    (Packed.deserialize kb : Except Error PublicKey) = .error cause := by
  constructor
  · rintro ⟨⟨kb', hkb, hcause⟩, -⟩
    exact Option.some.inj hkb ▸ hcause
  · intro hcause
    exact ⟨⟨kb, rfl, hcause⟩, fun j hj => absurd hj (Nat.not_lt_zero j)⟩

/-- and else it has none of its own. -/
theorem cons_succ_iff : IsFirstFault (kb :: kbs) (i + 1) cause ↔
    (∃ k : PublicKey, Packed.deserialize kb = .ok k) ∧ IsFirstFault kbs i cause := by
  constructor
  · rintro ⟨hfault, hbefore⟩
    exact ⟨hbefore 0 i.succ_pos kb rfl, hfault, fun j hj => hbefore (j + 1) (Nat.succ_lt_succ hj)⟩
  · rintro ⟨hk, hfault, hbefore⟩
    refine ⟨hfault, fun j hj => ?_⟩
    cases j with
    | zero => exact fun kb' hkb => Option.some.inj hkb ▸ hk
    | succ j => exact hbefore j (Nat.lt_of_succ_lt_succ hj)

end IsFirstFault

/-- Reading keys stops at the first fault, with its position and its cause. -/
theorem deserializeKeys_eq_error_iff {n m : ℕ} {kbs : List Bytes} {cause : Error} :
    deserializeKeys n kbs = .error (m, cause) ↔ ∃ i, m = n + i ∧ IsFirstFault kbs i cause := by
  induction kbs generalizing n with
  | nil =>
    constructor
    · intro h
      cases h
    · rintro ⟨_, _, h⟩
      exact (IsFirstFault.not_nil h).elim
  | cons kb kbs ih =>
    rw [deserializeKeys]
    cases hk : (Packed.deserialize kb : Except Error PublicKey) with
    | error e =>
      -- The fault is at the first key, so none is looked for later.
      constructor
      · intro h
        obtain ⟨rfl, rfl⟩ := Prod.mk.inj (Except.error.inj h)
        exact ⟨0, rfl, IsFirstFault.cons_zero_iff.2 hk⟩
      · rintro ⟨i, rfl, h⟩
        cases i with
        | zero => rw [Except.error.inj (hk.symm.trans (IsFirstFault.cons_zero_iff.1 h)), add_zero]
        | succ i =>
          obtain ⟨⟨k, hok⟩, -⟩ := IsFirstFault.cons_succ_iff.1 h
          cases hk.symm.trans hok
    | ok k =>
      refine map_eq_error_iff.trans (ih.trans ⟨?_, ?_⟩)
      · rintro ⟨i, rfl, h⟩
        exact ⟨i + 1, by omega, IsFirstFault.cons_succ_iff.2 ⟨⟨k, hk⟩, h⟩⟩
      · rintro ⟨i, rfl, h⟩
        cases i with
        | zero => cases hk.symm.trans (IsFirstFault.cons_zero_iff.1 h)
        | succ i => exact ⟨i, by omega, (IsFirstFault.cons_succ_iff.1 h).2⟩

/-- There is a first fault, or every key is read. -/
theorem exists_isFirstFault_or_forall₂ (kbs : List Bytes) :
    (∃ i cause, IsFirstFault kbs i cause) ∨ ∃ ks : List PublicKey,
      List.Forall₂ (fun kb k => Packed.deserialize kb = .ok k) kbs ks := by
  cases h : deserializeKeys 0 kbs with
  | error e =>
    obtain ⟨i, -, hfault⟩ := deserializeKeys_eq_error_iff.1 h
    exact .inl ⟨i, e.2, hfault⟩
  | ok ks => exact .inr ⟨ks, deserializeKeys_eq_ok_iff.1 h⟩

/-! ## Events of the verifiers -/

section Verifier

variable {T : Type} [One T] [DecidableEq T] {pairing : PairingProduct T}

/-- A signature is refused because of the key if that is the identity, and else as such. -/
theorem Scheme.verifyMessage_cause {Q : G2} {ns : Option Bytes} {message : Bytes} {S : G1}
    {cause : Error} (h : verifyMessage pairing Q ns message S = .error cause) :
    cause = if Q = 0 then .invalidPublicKey else .invalidSignature := by
  rw [verifyMessage, verify] at h
  split_ifs at h ⊢ with hQ hagrees
  · exact (Except.error.inj h).symm
  · exact (Except.error.inj h).symm

variable {ns : Option Bytes} {message : Bytes}

/-- A key reports a rejection, with its cause, and nothing else. -/
theorem PublicKey.events_verify (k : PublicKey) (s : Signature) :
    (k.verify pairing ns message s).events =
      if (k.verify pairing ns message s).value = true then [] else
      [.rejectedSignature (if k.element = 0 then .invalidPublicKey else .invalidSignature) k] := by
  rw [value_verify, verify]
  cases h : Scheme.verifyMessage pairing k.element ns message s.element with
  | error cause =>
    rw [← Scheme.verifyMessage_cause h]
    rfl
  | ok u => rfl

theorem PublicKey.isExplained_verify (k : PublicKey) (s : Signature) :
    (k.verify pairing ns message s).IsExplained := by
  rw [verify]
  cases Scheme.verifyMessage pairing k.element ns message s.element with
  | error cause => exact Logged.isExplained_no rfl
  | ok u => exact Logged.isExplained_yes

/-- Several keys report that they are added up, and then what their sum reports. -/
theorem events_verifyAggregated (ks : List PublicKey) (s : Signature) :
    (verifyAggregated pairing ks ns message s).events =
      .aggregatingPublicKeys ks.length ::
        (PublicKey.verify pairing (.of (Scheme.aggregate (ks.map Packed.element))) ns message
          s).events := rfl

theorem isExplained_verifyAggregated (ks : List PublicKey) (s : Signature) :
    (verifyAggregated pairing ks ns message s).IsExplained := by
  refine (PublicKey.isExplained_verify _ s).bind fun e he => ?_
  obtain rfl := List.mem_singleton.1 he
  exact nofun

/-! ## Events of the verification of bytes -/

theorem isExplained_withSignature (sb : Bytes) {verify : Signature → Logged Bool}
    (h : ∀ s, (verify s).IsExplained) : (withSignature sb verify).IsExplained := by
  rw [withSignature]
  cases (Packed.deserialize sb : Except Error Signature) with
  | error cause => exact Logged.isExplained_no rfl
  | ok s => exact h s

theorem isExplained_verifyBytes (kb sb : Bytes) :
    (verifyBytes pairing kb ns message sb).IsExplained := by
  rw [verifyBytes]
  cases (Packed.deserialize kb : Except Error PublicKey) with
  | error cause => exact Logged.isExplained_no rfl
  | ok k => exact isExplained_withSignature sb (PublicKey.isExplained_verify k)

theorem isExplained_verifyAggregatedBytes (kbs : List Bytes) (sb : Bytes) :
    (verifyAggregatedBytes pairing kbs ns message sb).IsExplained := by
  rw [verifyAggregatedBytes]
  cases deserializeKeys 0 kbs with
  | error e => exact Logged.isExplained_no rfl
  | ok ks => exact isExplained_withSignature sb (isExplained_verifyAggregated ks)

/-! ## Entries of the verification of bytes -/

/-- The entry of a signature that is rejected under a key. -/
def rejectionEntry (Q : G2) : String × String × List (String × String) :=
  ("DEBUG", "rejected signature",
    [("err", if Q = 0 then "InvalidPublicKey" else "InvalidSignature"),
      ("public_key", Bytes.hexadecimal Q.encode)])

/-- What a key reports of a signature is written as a rejection, if it is one. -/
theorem entries_verify (Q : G2) (s : Signature) :
    (PublicKey.verify pairing (.of Q) ns message s).entries =
      if (PublicKey.verify pairing (.of Q) ns message s).value = true then []
      else [rejectionEntry Q] := by
  rw [Logged.entries, PublicKey.events_verify, Packed.element_of]
  split_ifs with hvalue hQ
  · rfl
  · rw [rejectionEntry, ← Bytes.toHex_eq_hexadecimal, if_pos hQ]
    rfl
  · rw [rejectionEntry, ← Bytes.toHex_eq_hexadecimal, if_neg hQ]
    rfl

/-- A malformed signature is written as such, -/
theorem entries_withSignature_error {sb : Bytes} {verify : Signature → Logged Bool} {cause : Error}
    (h : (Packed.deserialize sb : Except Error Signature) = .error cause) :
    (withSignature sb verify).entries =
      [("DEBUG", "invalid signature", [("err", cause.symbol)])] := by
  rw [withSignature, h]
  rfl

/-- and with any other, verification goes on. -/
theorem withSignature_ok {sb : Bytes} {verify : Signature → Logged Bool} {s : Signature}
    (h : Packed.deserialize sb = .ok s) : withSignature sb verify = verify s := by
  rw [withSignature, h]

theorem verifyBytes_of_deserialize {kb : Bytes} {k : PublicKey} (sb : Bytes)
    (h : Packed.deserialize kb = .ok k) :
    verifyBytes pairing kb ns message sb =
      withSignature sb fun s => PublicKey.verify pairing k ns message s := by
  rw [verifyBytes, h]

theorem verifyAggregatedBytes_of_forall₂ {kbs : List Bytes} {ks : List PublicKey} (sb : Bytes)
    (h : List.Forall₂ (fun kb k => Packed.deserialize kb = .ok k) kbs ks) :
    verifyAggregatedBytes pairing kbs ns message sb =
      withSignature sb fun s => verifyAggregated pairing ks ns message s := by
  rw [verifyAggregatedBytes, deserializeKeys_eq_ok_iff.2 h]

/-- The first fault among the keys is the only thing that is written. -/
theorem entries_of_isFirstFault {kbs : List Bytes} {i : ℕ} {cause : Error} (sb : Bytes)
    (h : IsFirstFault kbs i cause) :
    (verifyAggregatedBytes pairing kbs ns message sb).entries =
      [("DEBUG", "invalid public key", [("err", cause.symbol), ("index", toString i)])] := by
  rw [verifyAggregatedBytes, deserializeKeys_eq_error_iff.2 ⟨i, (zero_add i).symm, h⟩]
  rfl

/-- The sum of the keys is written under the number of the keys. -/
theorem entries_verifyAggregated (ks : List PublicKey) (s : Signature) :
    (verifyAggregated pairing ks ns message s).entries =
      ("TRACE", "aggregating public keys", [("count", toString ks.length)]) ::
        if (verifyAggregated pairing ks ns message s).value = true then []
        else [rejectionEntry (Scheme.aggregate (ks.map Packed.element))] := by
  rw [Logged.entries, events_verifyAggregated, List.map_cons, ← Logged.entries, entries_verify]
  rfl

/-- Of keys that are given by their bytes, the first malformed one is reported, by its index
    and the cause for which it is refused, and nothing else is, whatever the signature. If
    there is none, but the signature is malformed, that is reported alone. If all is read, it
    is reported that as many keys are added up, and then, if and only if the answer is no,
    that the signature is rejected under their sum: for the key if the sum is the identity,
    and else for the signature. A single key is no different, but has no index and is not
    added up. The answer is yes if and only if no event of the debug level is reported. Two
    causes are not written alike. -/
theorem log_names_first_cause (pairing : PairingProduct T) (ns : Option Bytes)
    (message : Bytes) :
    Function.Injective Error.symbol ∧
      (∀ (kbs : List Bytes) (sb : Bytes),
          let answer := verifyAggregatedBytes pairing kbs ns message sb
          (∀ i cause, IsFirstFault kbs i cause → answer.entries =
            [("DEBUG", "invalid public key", [("err", cause.symbol), ("index", toString i)])]) ∧
          (∀ ks : List PublicKey, List.Forall₂ (fun kb k => Packed.deserialize kb = .ok k) kbs ks →
            (∀ cause, (Packed.deserialize sb : Except Error Signature) = .error cause →
              answer.entries = [("DEBUG", "invalid signature", [("err", cause.symbol)])]) ∧
            ∀ s : Signature, Packed.deserialize sb = .ok s →
              let sum := Scheme.aggregate (ks.map Packed.element)
              (answer.value = true ↔
                Scheme.verifyMessage pairing sum ns message s.element = .ok ()) ∧
              answer.entries =
                ("TRACE", "aggregating public keys", [("count", toString kbs.length)]) ::
                  if answer.value = true then [] else [rejectionEntry sum]) ∧
          ((∃ i cause, IsFirstFault kbs i cause) ∨ ∃ ks : List PublicKey,
            List.Forall₂ (fun kb k => Packed.deserialize kb = .ok k) kbs ks) ∧
          (answer.value = true ↔ ∀ e ∈ answer.events, e.level ≠ .debug)) ∧
      ∀ kb sb : Bytes,
        let answer := verifyBytes pairing kb ns message sb
        (∀ cause, (Packed.deserialize kb : Except Error PublicKey) = .error cause →
          answer.entries = [("DEBUG", "invalid public key", [("err", cause.symbol)])]) ∧
        (∀ k : PublicKey, Packed.deserialize kb = .ok k →
          (∀ cause, (Packed.deserialize sb : Except Error Signature) = .error cause →
            answer.entries = [("DEBUG", "invalid signature", [("err", cause.symbol)])]) ∧
          ∀ s : Signature, Packed.deserialize sb = .ok s →
            (answer.value = true ↔
              Scheme.verifyMessage pairing k.element ns message s.element = .ok ()) ∧
            answer.entries = if answer.value = true then [] else [rejectionEntry k.element]) ∧
        (answer.value = true ↔ ∀ e ∈ answer.events, e.level ≠ .debug) := by
  refine ⟨Error.symbol_injective, fun kbs sb => ⟨fun i cause h => entries_of_isFirstFault sb h,
    fun ks hks => ?_, exists_isFirstFault_or_forall₂ kbs, isExplained_verifyAggregatedBytes kbs sb⟩,
    fun kb sb => ⟨fun cause h => ?_, fun k hk => ?_, isExplained_verifyBytes kb sb⟩⟩
  · rw [verifyAggregatedBytes_of_forall₂ sb hks, hks.length_eq]
    refine ⟨fun cause h => entries_withSignature_error h, fun s hs => ?_⟩
    rw [withSignature_ok hs]
    refine ⟨?_, entries_verifyAggregated ks s⟩
    rw [value_verifyAggregated, isOk_eq_true_iff, Scheme.verifyAggregate]
  · rw [verifyBytes, h]
    rfl
  · obtain ⟨Q, -, rfl⟩ := map_eq_ok_iff.1 hk
    rw [verifyBytes_of_deserialize sb hk]
    refine ⟨fun cause h => entries_withSignature_error h, fun s hs => ?_⟩
    rw [withSignature_ok hs]
    exact ⟨PublicKey.verify_eq_true_iff, entries_verify Q s⟩

end Verifier

/-- Two keys of three are malformed, and the signature is: the first of these keys is
    reported. A key by itself is reported with what is wrong with it, be it the length, a
    number, the equation or the order. Under a key that is read, the signature is reported.
    Without any keys, the sum is the identity, under which the identity is rejected; and it
    is rejected under keys that add up to the generator, whose coordinates are written. The
    aggregate of the signatures of the private keys one and two gives no reason for a
    rejection. -/
theorem log_names_second_key :
    let identity : Bytes := (0 : G2).encode
    let K : Scalar → PublicKey := fun k => .of (Scheme.publicKey k)
    let s : Signature := .of (Scheme.signMessage 3 none [7])
    (IsFirstFault [identity, [1], []] 1 (.invalidLength 128 1) ∧
        (verifyAggregatedBytes logPairing [identity, [1], []] none [7] [2]).entries =
          [("DEBUG", "invalid public key",
            [("err", "InvalidLength \x7b expected: 128, actual: 1 \x7d"), ("index", "1")])]) ∧
      (∀ fault ∈ [([1], .invalidLength 128 1, "InvalidLength \x7b expected: 128, actual: 1 \x7d"),
            (List.replicate 128 255, .nonCanonical, "NonCanonical"),
            (Bytes.ofNat 128 1, .notOnCurve, "NotOnCurve"),
            (G2.encode G2.outsider.point, .notInSubgroup, "NotInSubgroup")],
          (Packed.deserialize fault.1 : Except Error PublicKey) = .error fault.2.1 ∧
            (verifyBytes logPairing fault.1 none [7] [2]).entries =
              [("DEBUG", "invalid public key", [("err", fault.2.2)])]) ∧
      ((Packed.deserialize [2] : Except Error Signature) = .error (.invalidLength 64 1) ∧
        (verifyBytes logPairing identity none [7] [2]).entries =
          [("DEBUG", "invalid signature",
            [("err", "InvalidLength \x7b expected: 64, actual: 1 \x7d")])]) ∧
      (verifyAggregatedBytes logPairing [] none [7] (0 : G1).encode).entries =
        [("TRACE", "aggregating public keys", [("count", "0")]),
          ("DEBUG", "rejected signature", [("err", "InvalidPublicKey"),
            ("public_key", String.ofList (List.replicate 256 '0'))])] ∧
      (verifyAggregatedBytes logPairing [(K 2).serialize, (K (-1)).serialize] none [7]
          (0 : G1).encode).entries =
        [("TRACE", "aggregating public keys", [("count", "2")]),
          ("DEBUG", "rejected signature", [("err", "InvalidSignature"),
            ("public_key", "198e9393920d483a7260bfb731fb5d25f1aa493335a9e71297e485b7aef312c2" ++
              "1800deef121f1e76426a00665e5c4479674322d4f75edadd46debd5cd992f6ed" ++
              "090689d0585ff075ec9e99ad690c3395bc4b313370b38ef355acdadcd122975b" ++
              "12c85ea5db8c6deb4aab71808dcb408fe3d1e7690c43d37b4ce6cc0166fa7daa")])] ∧
      (verifyAggregatedBytes logPairing [(K 1).serialize, (K 2).serialize] none [7]
          s.serialize).entries =
        [("TRACE", "aggregating public keys", [("count", "2")])] := by
  intro identity K s
  have hkey : ∀ Q : G2, Q.IsValid → Packed.deserialize (Packed.of Q).serialize = .ok (.of Q) :=
    fun Q hQ => (Packed.isFaithful_of hQ).deserialize_serialize canonical_point₂
  have hsign : ∀ S : G1, S.IsValid → Packed.deserialize (Packed.of S).serialize = .ok (.of S) :=
    fun S hS => (Packed.isFaithful_of hS).deserialize_serialize canonical_point₁
  have hkeys : ∀ k l : Scalar, List.Forall₂ (fun kb k => Packed.deserialize kb = .ok k)
      [(K k).serialize, (K l).serialize] [K k, K l] := fun k l =>
    .cons (hkey _ (Scheme.isValid_publicKey k)) (.cons (hkey _ (Scheme.isValid_publicKey l)) .nil)
  have hfault : IsFirstFault [identity, [1], []] 1 (.invalidLength 128 1) :=
    IsFirstFault.cons_succ_iff.2
      ⟨⟨_, hkey 0 G2.isValid_zero⟩, IsFirstFault.cons_zero_iff.2 (by decide)⟩
  have hbad : (Packed.deserialize [2] : Except Error Signature) = .error (.invalidLength 64 1) := by
    decide
  obtain ⟨-, hlists, hbytes⟩ := log_names_first_cause logPairing none [7]
  refine ⟨⟨hfault, (hlists _ _).1 1 _ hfault⟩, ?_,
    ⟨hbad, ((hbytes identity [2]).2.1 _ (hkey 0 G2.isValid_zero)).1 _ hbad⟩, ?_, ?_, ?_⟩
  · simp only [List.forall_mem_cons]
    have hreport : ∀ (kb : Bytes) (cause : Error),
        (Packed.deserialize kb : Except Error PublicKey) = .error cause →
        (Packed.deserialize kb : Except Error PublicKey) = .error cause ∧
          (verifyBytes logPairing kb none [7] [2]).entries =
            [("DEBUG", "invalid public key", [("err", cause.symbol)])] :=
      fun kb cause h => ⟨h, (hbytes kb [2]).1 cause h⟩
    exact ⟨hreport _ (.invalidLength 128 1) (by decide),
      hreport _ .nonCanonical (by decide +kernel), hreport _ .notOnCurve (by decide +kernel),
      hreport _ .notInSubgroup (by decide +kernel), List.forall_mem_nil _⟩
  · -- The sum of no keys is the identity.
    have hempty := ((hlists [] (0 : G1).encode).2.1 [] .nil).2 _ (hsign 0 G1.isValid_zero)
    obtain ⟨hanswer, hentries⟩ := hempty
    have hzero : Scheme.verifyAggregate logPairing [] none [7] 0 = .error .invalidPublicKey :=
      (Scheme.verifyAggregate_eq_invalidPublicKey_iff [] none [7] 0).2 rfl
    have hno : (verifyAggregatedBytes logPairing [] none [7] (0 : G1).encode).value ≠ true := by
      rw [Ne, hanswer]
      intro hok
      cases hok.symm.trans hzero
    rw [hentries, if_neg hno, List.length_nil]
    decide +kernel
  · have hsum : Scheme.aggregate ([K 2, K (-1)].map Packed.element) = G2.generator :=
      (Scheme.aggregate_publicKey [2, -1]).trans (by decide +kernel)
    obtain ⟨hanswer, hentries⟩ :=
      ((hlists _ (0 : G1).encode).2.1 _ (hkeys 2 (-1))).2 _ (hsign 0 G1.isValid_zero)
    have hreject : Scheme.verifyAggregate logPairing ([2, -1].map Scheme.publicKey) none [7] 0 ≠
        .ok () := by
      rw [Ne, Scheme.verifyAggregate_eq_ok_iff isPairing_logPairing [2, -1] none [7]
        G1.isValid_zero, Scheme.aggregate_signMessage]
      decide +kernel
    rw [hentries, if_neg (mt hanswer.1 hreject), hsum]
    decide +kernel
  · have hS : (Scheme.signMessage 3 none [7]).IsValid := Scheme.isValid_sign 3 _ _
    obtain ⟨hanswer, hentries⟩ := ((hlists _ _).2.1 _ (hkeys 1 2)).2 _ (hsign _ hS)
    have hok := (Scheme.verifyAggregate_eq_ok_iff isPairing_logPairing [1, 2] none [7] hS).2
      ⟨by decide, (Scheme.aggregate_signMessage [1, 2] none [7]).symm⟩
    have hcount : [(K 1).serialize, (K 2).serialize].length = 2 := rfl
    rw [hentries, if_pos (hanswer.2 hok), hcount]
    rfl

end BlsBn254
