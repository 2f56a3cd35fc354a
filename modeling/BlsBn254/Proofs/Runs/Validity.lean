import BlsBn254.Proofs.Codec.Streams
import BlsBn254.Proofs.Curve.Coordinates
import BlsBn254.Proofs.Curve.OrderSubgroup
import BlsBn254.Proofs.Keys.Verifier
import BlsBn254.Proofs.Runs.Operations

/-!
# What runs reach is valid

Every operation reaches a valid value from valid operands (`Operation.eval_valid`): an
element of its group, and a packed element that is kept together with its own encoding.
So whatever a run reaches is valid (`Registers.Valid.run`), which says of scalars that
they are below `r`, of points that they belong to the two groups, and of all values that
their own reader takes them back from their encodings (`run_values_valid`).
-/

namespace BlsBn254

/-! ## Elements -/

namespace Kind

/-- The elements of the group. Of the scalars all are, by their type. -/
def Valid : (κ : Kind) → κ.Element → Prop
  | scalar, _ => True
  | point₁, P => G1.IsValid P
  | point₂, Q => G2.IsValid Q

theorem canonical : (κ : Kind) → (format : Format κ.Element).IsCanonical κ.Valid
  | scalar => canonical_scalar
  | point₁ => canonical_point₁
  | point₂ => canonical_point₂

theorem valid_zero : (κ : Kind) → κ.Valid 0
  | scalar => trivial
  | point₁ => G1.isValid_zero
  | point₂ => G2.isValid_zero

theorem valid_one : (κ : Kind) → κ.Valid κ.one
  | scalar => trivial
  | point₁ => G1.isValid_point G1.base
  | point₂ => G2.isValid_point G2.base

theorem Valid.add : {κ : Kind} → {a b : κ.Element} → κ.Valid a → κ.Valid b → κ.Valid (a + b)
  | scalar, _, _, _, _ => trivial
  | point₁, _, _, hP, hQ => G1.IsValid.add hP hQ
  | point₂, _, _, hP, hQ => G2.IsValid.add hP hQ

theorem Valid.mul : {κ : Kind} → {a : κ.Element} → κ.Valid a → (k : Scalar) → κ.Valid (κ.mul a k)
  | scalar, _, _, _ => trivial
  | point₁, _, hP, k => G1.IsValid.smul hP k
  | point₂, _, hP, k => G2.IsValid.smul hP k

theorem valid_aggregate {κ : Kind} {as : List κ.Element} (h : ∀ a ∈ as, κ.Valid a) :
    κ.Valid (Scheme.aggregate as) := by
  -- The sum may start from any valid element.
  have hfold : ∀ a, κ.Valid a → κ.Valid (as.foldl (· + ·) a) := by
    induction as with
    | nil => exact fun a ha => ha
    | cons b as ih =>
      intro a ha
      exact ih (fun c hc => h c (List.mem_cons_of_mem b hc)) _ (ha.add (h b List.mem_cons_self))
  exact hfold 0 κ.valid_zero

/-- Zero alone is encoded as zeroes. -/
theorem encode_eq_zeros_iff : {κ : Kind} → {a : κ.Element} → κ.Valid a →
    ((format : Format κ.Element).encode a = Bytes.zeros (format : Format κ.Element).size ↔ a = 0)
  | scalar, _, _ =>
    ⟨fun h => Residue.encode_injective (h.trans Residue.encode_zero.symm),
      fun h => (congrArg Residue.encode h).trans Residue.encode_zero⟩
  | point₁, _, hP => G1.encode_eq_zeros_iff hP
  | point₂, _, hP => G2.encode_eq_zeros_iff hP

end Kind

/-! ## Packed elements -/

namespace Packed.IsFaithful

variable {E : Type} [Formatted E] {Valid : E → Prop} {k : Packed E}

/-- What is kept together with its encoding is read back from it, from a stream -/
theorem readsBack (hk : k.IsFaithful Valid) (h : (format : Format E).IsCanonical Valid) :
    (format : Format (Packed E)).ReadsBack k := by
  have hparse := (h.parse_eq_ok_iff (h.length_encode k.element)).2 ⟨hk.valid, rfl⟩
  rw [← hk.raw_eq] at hparse
  have hlen : k.raw.length = (format : Format E).size := hk.raw_eq ▸ h.length_encode k.element
  exact Format.readsBack_iff.2 (Format.ofBytes_eq_ok_iff.2 ⟨hlen, congrArg (Except.map _) hparse⟩)

/-- and as a whole. -/
theorem deserialize_serialize (hk : k.IsFaithful Valid)
    (h : (format : Format E).IsCanonical Valid) : deserialize k.serialize = .ok k :=
  (deserialize_eq_ok_iff h).2 ⟨k.element, hk.valid, hk.raw_eq, hk.eq_of_iff.2 rfl⟩

end Packed.IsFaithful

/-! ## Values of every shape -/

namespace Shape

/-- The valid elements, bare or packed together with their own encodings. -/
def Valid : (σ : Shape) → σ.Value → Prop
  | bare κ, a => κ.Valid a
  | packed κ, k => k.IsFaithful κ.Valid

/-- What is read is valid, -/
theorem valid_of_ofBytes : {σ : Shape} → {b : Bytes} → {a : σ.Value} →
    (format : Format σ.Value).ofBytes b = .ok a → σ.Valid a
  | bare κ, _, _, h => (κ.canonical.ofBytes_eq_ok_iff.1 h).1
  | packed κ, _, _, h =>
    have hparse := Format.ofBytes_eq_ok_iff.1 h
    Packed.isFaithful_of_parse κ.canonical hparse.1 hparse.2

/-- and what is valid is read back from its encoding. -/
theorem Valid.readsBack : {σ : Shape} → {a : σ.Value} → σ.Valid a →
    (format : Format σ.Value).ReadsBack a
  | bare κ, _, h => κ.canonical.readsBack h
  | packed κ, _, h => Packed.IsFaithful.readsBack h κ.canonical

end Shape

/-! ## Runs -/

namespace Registers

/-- All registers hold valid values. -/
def Valid (s : Registers) : Prop := ∀ σ, ∀ a ∈ s σ, σ.Valid a

theorem valid_empty : empty.Valid := fun _ _ ha => absurd ha List.not_mem_nil

theorem mem_push_self (s : Registers) {σ : Shape} (a : σ.Value) : a ∈ s.push σ a σ := by
  rw [push, Function.update_self]
  exact List.mem_append_right _ (List.mem_singleton_self a)

namespace Valid

variable {s : Registers} (hs : s.Valid) {σ : Shape}

include hs

theorem get {i : ℕ} : ∀ a ∈ s.get σ i, σ.Valid a := fun a ha =>
  hs σ a (List.mem_of_getElem? ha)

theorem getAll {is : List ℕ} : ∀ as ∈ s.getAll σ is, ∀ a ∈ as, σ.Valid a := by
  induction is with
  | nil =>
    intro as has a ha
    obtain rfl := Option.some.inj has
    exact absurd ha List.not_mem_nil
  | cons i is ih =>
    intro as has
    rw [Registers.getAll, List.mapM_cons] at has
    obtain ⟨a, ha, has⟩ := Option.bind_eq_some_iff.1 has
    obtain ⟨rest, hrest, has⟩ := Option.bind_eq_some_iff.1 has
    obtain rfl := Option.some.inj has
    exact List.forall_mem_cons.2 ⟨hs.get a ha, ih rest hrest⟩

theorem push {a : σ.Value} (ha : σ.Valid a) : (s.push σ a).Valid := by
  refine (Function.forall_update_iff s fun τ l => ∀ b ∈ l, τ.Valid b).2 ⟨?_, fun τ _ => hs τ⟩
  intro b hb
  rcases List.mem_append.1 hb with hb | hb
  · exact hs σ b hb
  · exact List.mem_singleton.1 hb ▸ ha

end Valid

end Registers

/-! ## Steps -/

namespace Operation

section Operands

variable {s : Registers} (hs : s.Valid) (σ τ υ : Shape)

include hs

/-- What is made of a valid operand is valid if this is so of all valid values, -/
theorem valid_map {i : ℕ} {f : σ.Value → τ.Value} (hf : ∀ a, σ.Valid a → τ.Valid (f a)) :
    ∀ b ∈ (s.get σ i).map f, τ.Valid b :=
  Option.forall_mem_map.2 fun a ha => hf a (hs.get a ha)

/-- and so is what is made of two operands -/
theorem valid_map₂ {i j : ℕ} {f : σ.Value → τ.Value → υ.Value}
    (hf : ∀ a b, σ.Valid a → τ.Valid b → υ.Valid (f a b)) :
    ∀ c ∈ Option.map₂ f (s.get σ i) (s.get τ j), υ.Valid c := by
  intro c hc
  obtain ⟨a, b, ha, hb, rfl⟩ := Option.mem_map₂_iff.1 hc
  exact hf a b (hs.get a ha) (hs.get b hb)

/-- and of a list of operands. -/
theorem valid_map_getAll {is : List ℕ} {f : List σ.Value → τ.Value}
    (hf : ∀ as : List σ.Value, (∀ a ∈ as, σ.Valid a) → τ.Valid (f as)) :
    ∀ b ∈ (s.getAll σ is).map f, τ.Valid b :=
  Option.forall_mem_map.2 fun as has => hf as (hs.getAll as has)

end Operands

theorem valid_some (σ : Shape) {a : σ.Value} (ha : σ.Valid a) : ∀ b ∈ some a, σ.Valid b := by
  rintro b ⟨⟩
  exact ha

/-- What bytes are read as is valid if this is so of all that is read. -/
theorem valid_toOption (σ : Shape) {ε : Type} {x : Except ε σ.Value}
    (hx : ∀ a, x = .ok a → σ.Valid a) : ∀ a ∈ x.toOption, σ.Valid a := by
  intro a ha
  cases x with
  | error e => cases ha
  | ok b => exact Option.some.inj ha ▸ hx b rfl

theorem valid_read (σ : Shape) (b : Bytes) :
    ∀ a ∈ ((format : Format σ.Value).read b).toOption.map Prod.fst, σ.Valid a := by
  intro a ha
  cases h : (format : Format σ.Value).read b with
  | error e =>
    rw [h] at ha
    cases ha
  | ok x =>
    rw [h] at ha
    obtain ⟨c, hc, -⟩ := Format.read_eq_ok_iff.1 h
    exact Option.some.inj ha ▸ Shape.valid_of_ofBytes hc

variable {s : Registers}

/-- An operation reaches a valid value from valid operands. -/
theorem eval_valid (hs : s.Valid) {σ : Shape} (o : Operation σ) : ∀ a ∈ o.eval s, σ.Valid a := by
  cases o with
  | zero κ => exact valid_some (.bare κ) κ.valid_zero
  | one κ => exact valid_some (.bare κ) κ.valid_one
  | add κ i j =>
    exact valid_map₂ hs (.bare κ) (.bare κ) (.bare κ) fun a b ha hb => Kind.Valid.add ha hb
  | mul κ i k =>
    exact valid_map₂ hs (.bare κ) (.bare .scalar) (.bare κ) fun a k ha _ => Kind.Valid.mul ha k
  | aggregate κ is =>
    exact valid_map_getAll hs (.bare κ) (.bare κ) fun as has => Kind.valid_aggregate has
  | ofBytes κ b => exact valid_toOption (.bare κ) fun a ha => Shape.valid_of_ofBytes ha
  | decode σ b =>
    exact valid_toOption σ fun a ha => Shape.valid_of_ofBytes (Format.decode_eq_ok_iff.1 ha)
  | read σ b => exact valid_read σ b
  -- Scalars are valid by their type.
  | number n => exact fun _ _ => trivial
  | random source => exact fun _ _ => trivial
  | inverse i => exact fun _ _ => trivial
  | wipe i => exact fun _ _ => trivial
  | keypairPrivate source => exact fun _ _ => trivial
  | hash tag message => exact valid_some (.bare .point₁) (isValid_hashToCurve tag message)
  | hashWithin tag ns message => exact valid_some (.bare .point₁) (isValid_hashToCurve tag _)
  | publicKey k =>
    exact valid_map hs (.bare .scalar) (.bare .point₂) fun k _ => Scheme.isValid_publicKey k
  | keypairPublic source => exact valid_some (.bare .point₂) (Scheme.isValid_publicKey _)
  | sign k tag message =>
    exact valid_map hs (.bare .scalar) (.bare .point₁) fun k _ => Scheme.isValid_sign k tag message
  | signMessage k ns message =>
    exact valid_map hs (.bare .scalar) (.bare .point₁) fun k _ => Scheme.isValid_sign k _ _
  | provePossession k =>
    exact valid_map hs (.bare .scalar) (.bare .point₁) fun k _ => Scheme.isValid_sign k _ _
  | pack κ i => exact valid_map hs (.bare κ) (.packed κ) fun a ha => Packed.isFaithful_of ha
  | unpack κ i => exact valid_map hs (.packed κ) (.bare κ) fun k hk => hk.valid
  | deserialize κ b =>
    exact valid_toOption (.packed κ) fun k hk => Packed.isFaithful_of_deserialize κ.canonical hk
  | addPacked κ i j =>
    exact valid_map₂ hs (.packed κ) (.packed κ) (.packed κ) fun k l hk hl =>
      Packed.isFaithful_of (hk.valid.add hl.valid)
  | keyRandom source => exact valid_some (.packed .scalar) (Packed.isFaithful_of trivial)
  | keyOfSeed seed => exact valid_some (.packed .scalar) (Packed.isFaithful_of trivial)
  | keyWipe k =>
    exact valid_map hs (.packed .scalar) (.packed .scalar) fun k _ =>
      ⟨trivial, Residue.encode_zero.symm⟩
  | keyPublic k =>
    exact valid_map hs (.packed .scalar) (.packed .point₂) fun k _ =>
      Packed.isFaithful_of (Scheme.isValid_publicKey k.element)
  | keySign k ns message =>
    exact valid_map hs (.packed .scalar) (.packed .point₁) fun k _ =>
      Packed.isFaithful_of (Scheme.isValid_sign k.element _ _)
  | keyProvePossession k =>
    exact valid_map hs (.packed .scalar) (.packed .point₁) fun k _ =>
      Packed.isFaithful_of (Scheme.isValid_sign k.element _ _)
  | aggregatePublicKeys ks =>
    exact valid_map_getAll hs (.packed .point₂) (.packed .point₂) fun ks hks =>
      Packed.isFaithful_of <| Kind.valid_aggregate <|
        List.forall_mem_map.2 fun k hk => (hks k hk).valid
  | aggregateSignatures ss =>
    exact valid_map_getAll hs (.packed .point₁) (.packed .point₁) fun ss hss =>
      Packed.isFaithful_of <| Kind.valid_aggregate <|
        List.forall_mem_map.2 fun s hs => (hss s hs).valid

end Operation

/-! ## Whole runs -/

namespace Registers

variable {s : Registers}

/-- A step keeps all registers valid, -/
theorem Valid.step (hs : s.Valid) {σ : Shape} (o : Operation σ) : (s.step o).Valid := by
  rw [Registers.step]
  cases h : o.eval s with
  | none => exact hs
  | some a => exact hs.push (o.eval_valid hs a h)

/-- and so does a run. -/
theorem Valid.run (hs : s.Valid) (os : Program) : (s.run os).Valid := by
  induction os generalizing s with
  | nil => exact hs
  | cons o os ih => exact ih (hs.step o.2)

end Registers

/-- What a run reaches is valid. -/
theorem Reachable.valid {σ : Shape} {a : σ.Value} (ha : Reachable σ a) : σ.Valid a := by
  obtain ⟨os, hmem⟩ := ha
  exact Registers.valid_empty.run os σ a hmem

/-- Every valid value is reached, as reading it from its encoding is an operation. -/
theorem reachable_iff {σ : Shape} {a : σ.Value} : Reachable σ a ↔ σ.Valid a := by
  refine ⟨Reachable.valid, fun ha => ⟨[⟨σ, .decode σ ((format : Format σ.Value).encode a)⟩], ?_⟩⟩
  have heval : (Operation.decode σ ((format : Format σ.Value).encode a)).eval Registers.empty =
      some a := by
    rw [Operation.eval, ha.readsBack.decode]
    rfl
  rw [Registers.run, List.foldl_cons, List.foldl_nil, Registers.step, heval]
  exact Registers.mem_push_self Registers.empty a

/-- After every run, the scalars are below `r`, the points of `G1` are infinity or on the
    curve, and those of `G2` are infinity or points of the twist that belong to its
    subgroup of order `r`; and every value is read back from its encoding, as a whole, from
    a stream that consists of it, and from a stream that begins with it. -/
theorem run_values_valid (os : Program) :
    (∀ k : Scalar, k ∈ Registers.empty.run os (.bare .scalar) →
        k.val < r ∧ Bytes.toNat k.encode = k.val) ∧
      (∀ P : G1, P ∈ Registers.empty.run os (.bare .point₁) →
        P = 0 ∨ ∃ x y : Fp, P = .affine x y ∧ y ^ 2 = x ^ 3 + 3) ∧
      Nat.card G2.orderSubgroup = r ∧
      (∀ Q : G2, Q ∈ Registers.empty.run os (.bare .point₂) →
        Q = 0 ∨ ∃ x y : Fp2, Q = .affine x y ∧ y ^ 2 = x ^ 3 + G2.twistConstant ∧
          ∃ h : Q.OnCurve G2.twistConstant, ⟨Q, h⟩ ∈ G2.orderSubgroup) ∧
      (∀ σ : Shape, ∀ a ∈ Registers.empty.run os σ, (format : Format σ.Value).ReadsBack a) ∧
      ∀ κ : Kind, ∀ k ∈ Registers.empty.run os (.packed κ),
        Packed.deserialize (Packed.serialize k) = .ok k := by
  have hvalid := Registers.valid_empty.run os
  refine ⟨fun k _ => ⟨k.isLt, Residue.toNat_encode k⟩, fun P hP => ?_,
    G2.card_orderSubgroup, fun Q hQ => ?_, fun σ a ha => (hvalid σ a ha).readsBack,
    fun κ k hk => ?_⟩
  · have hP' : P.OnCurve G1.curveConstant := hvalid (.bare .point₁) P hP
    rwa [Point.onCurve_iff, G1.curveConstant_eq] at hP'
  · obtain ⟨hon, hmem⟩ := G2.isValid_iff_mem.1 (hvalid (.bare .point₂) Q hQ)
    rcases Point.onCurve_iff.1 hon with hQ' | ⟨x, y, hxy, heq⟩
    · exact .inl hQ'
    · exact .inr ⟨x, y, hxy, heq, hon, hmem⟩
  · exact Packed.IsFaithful.deserialize_serialize (hvalid (.packed κ) k hk) κ.canonical

/-- A run that doubles the generator of `G1`, and packs the public key of the scalar two. -/
theorem run_two_values_valid :
    let os : Program := [⟨_, .number 2⟩, ⟨_, .one .point₁⟩, ⟨_, .mul .point₁ 0 0⟩,
      ⟨_, .publicKey 0⟩, ⟨_, .pack .point₂ 0⟩]
    let s := Registers.empty.run os
    let P : G1 := (2 : Scalar) • G1.generator
    let Q := Scheme.publicKey 2
    ((2 : Scalar) ∈ s (.bare .scalar) ∧ Bytes.toNat (2 : Scalar).encode = 2) ∧
      (P ∈ s (.bare .point₁) ∧ (P = 0 ∨ ∃ x y : Fp, P = .affine x y ∧ y ^ 2 = x ^ 3 + 3)) ∧
      (Q ∈ s (.bare .point₂) ∧ (Q = 0 ∨ ∃ x y : Fp2, Q = .affine x y ∧
        y ^ 2 = x ^ 3 + G2.twistConstant ∧
          ∃ h : Q.OnCurve G2.twistConstant, ⟨Q, h⟩ ∈ G2.orderSubgroup) ∧
        (format : Format G2).ReadsBack Q) ∧
      (Packed.of Q ∈ s (.packed .point₂) ∧
        Packed.deserialize (Packed.of Q).serialize = .ok (Packed.of Q)) := by
  intro os s P Q
  have hk : (2 : Scalar) ∈ s (.bare .scalar) := by decide
  have hP : P ∈ s (.bare .point₁) := by decide +kernel
  have hQ : Q ∈ s (.bare .point₂) := by decide +kernel
  have hpack : Packed.of Q ∈ s (.packed .point₂) := by decide +kernel
  obtain ⟨hscalar, hpoint₁, -, hpoint₂, hread, hpacked⟩ := run_values_valid os
  exact ⟨⟨hk, (hscalar 2 hk).2⟩, ⟨hP, hpoint₁ P hP⟩,
    ⟨hQ, hpoint₂ Q hQ, hread (.bare .point₂) Q hQ⟩, ⟨hpack, hpacked .point₂ _ hpack⟩⟩

end BlsBn254
