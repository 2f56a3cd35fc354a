import BlsBn254.Proofs.Runs.Validity

/-!
# Aggregates do not depend on order or grouping

However a list of elements is added up, two at a time or group by group and in any order,
the encoding of the sum is that of the aggregate, and so for public keys and signatures
(`grouping_coherent`). As the elements of a group are the products of its generator by
the scalars, they stand for these scalars, and the operations of all kinds are summations.

Points may also be added up by coordinates, of which a point has many, and which depend on
the order of the sums. Of the addition it is only asked that it computes the law of the
group up to the choice of coordinates (`Jacobian.Adds`). The encoding does not depend on
that choice.
-/

namespace BlsBn254

/-! ## Points by their coordinates -/

section Coordinates

variable {F : Type} [Field F] [DecidableEq F] {b : F} [(weierstrass b).IsElliptic]

namespace Jacobian

/-- The addition of coordinates computes the sum of valid points. -/
def Adds (Valid : Point F → Prop) (add : Jacobian F → Jacobian F → Jacobian F) : Prop :=
  ∀ J K, Valid J.toPoint → Valid K.toPoint → (add J K).toPoint = J.toPoint + K.toPoint

/-- The sum of coordinates, the second of which are brought to the scale one. -/
def add (J K : Jacobian F) : Jacobian F :=
  match K.toPoint with
  | .infinity => J
  | .affine x y => J.addAffine x y

theorem adds_add : Adds (Point.OnCurve b) add := by
  intro J K hJ hK
  rw [add]
  cases hpoint : K.toPoint with
  | infinity => rw [Point.add_infinity]
  | affine x y =>
    exact toPoint_addAffine (two_ne_zero_of_isElliptic (b := b)) (hpoint ▸ hK) hJ

variable {Valid : Point F → Prop} {x : Torsion b}

/-- Coordinates stand for the same scalars as their points. -/
theorem isSummation_coordinates (hvalid : ∀ P, Valid P ↔ ∃ k : Scalar, P = k • x.point)
    {add : Jacobian F → Jacobian F → Jacobian F} (hadd : Adds Valid add) :
    IsSummation (fun J (k : Scalar) => J.toPoint = k • x.point) add
      fun Js => Js.foldl add infinity := by
  refine isSummation_foldl ((toPoint_of_eq_zero rfl).trans (Torsion.zero_smul_point x).symm) ?_
  intro J K k l hJ hK
  rw [hadd J K ((hvalid _).2 ⟨k, hJ⟩) ((hvalid _).2 ⟨l, hK⟩), hJ, hK, Torsion.add_smul_point]

/-- Coordinates that are added up belong to the aggregate of the points. -/
theorem toPoint_eval (hvalid : ∀ P, Valid P ↔ ∃ k : Scalar, P = k • x.point)
    {add : Jacobian F → Jacobian F → Jacobian F} (hadd : Adds Valid add) {Ps : List (Point F)}
    (hPs : ∀ P ∈ Ps, Valid P) {g : Grouping (Jacobian F)}
    (hperm : (g.leaves.map toPoint).Perm Ps) :
    (g.eval add fun Js => Js.foldl add infinity).toPoint = Scheme.aggregate Ps := by
  choose! φ hφ using fun P hP => (hvalid P).1 hP
  have hleaves : ∀ J ∈ g.leaves, J.toPoint = φ J.toPoint • x.point := fun J hJ =>
    hφ _ (hPs _ (hperm.subset (List.mem_map_of_mem hJ)))
  have hsum : (g.leaves.map fun J => φ J.toPoint).sum = (Ps.map φ).sum := by
    rw [← (hperm.map φ).sum_eq, List.map_map]
    rfl
  rw [(isSummation_coordinates hvalid hadd).eval g hleaves, hsum]
  exact ((Scheme.isSummation_points x).sum_map fun P hP => hφ P (hPs P hP)).symm

end Jacobian

end Coordinates

/-! ## Elements of every kind -/

namespace Kind

/-- The valid elements are the products of one of them by the scalars. -/
theorem valid_iff_mul : {κ : Kind} → {a : κ.Element} → (κ.Valid a ↔ ∃ k, a = κ.mul κ.one k)
  | scalar, a => iff_of_true trivial ⟨a, (one_mul a).symm⟩
  | point₁, _ => G1.isValid_iff_smul
  | point₂, _ => G2.isValid_iff_smul

theorem mul_mul_one : (κ : Kind) → (k l : Scalar) → κ.mul (κ.mul κ.one k) l = κ.mul κ.one (l * k)
  | scalar, k, l => by
    rw [mul, mul, mul_assoc, mul_comm k l]
    rfl
  | point₁, k, l => (Torsion.mul_smul_point l k G1.base).symm
  | point₂, k, l => (Torsion.mul_smul_point l k G2.base).symm

/-- Elements stand for the scalars by which they are products. -/
theorem isSummation_aggregate : (κ : Kind) →
    IsSummation (fun (a : κ.Element) k => a = κ.mul κ.one k) (· + ·) Scheme.aggregate
  | scalar => by
    refine isSummation_foldl (mul_zero (1 : Scalar)).symm ?_
    rintro _ _ k l rfl rfl
    exact (mul_add (1 : Scalar) k l).symm
  | point₁ => Scheme.isSummation_points G1.base
  | point₂ => Scheme.isSummation_points G2.base

/-- However valid elements are added up, the sum is their aggregate. -/
theorem eval_eq_aggregate {κ : Kind} {as : List κ.Element} (has : ∀ a ∈ as, κ.Valid a)
    {g : Grouping κ.Element} (hperm : g.leaves.Perm as) :
    g.eval (· + ·) Scheme.aggregate = Scheme.aggregate as :=
  κ.isSummation_aggregate.eval_eq_sum (fun a ha => valid_iff_mul.1 (has a ha)) hperm

/-- The aggregate of `n` copies is the product by `n`. -/
theorem aggregate_replicate {κ : Kind} {a : κ.Element} (ha : κ.Valid a) (n : ℕ) :
    Scheme.aggregate (List.replicate n a) = κ.mul a (Residue.ofNat n) := by
  obtain ⟨k, rfl⟩ := valid_iff_mul.1 ha
  have hcopies : ∀ b ∈ List.replicate n (κ.mul κ.one k), b = κ.mul κ.one k := fun b hb =>
    List.eq_of_mem_replicate hb
  rw [κ.isSummation_aggregate.sum_map hcopies, mul_mul_one, List.map_replicate,
    List.sum_replicate, nsmul_eq_mul]
  rfl

theorem identity_add : {κ : Kind} → (a : κ.Element) → 0 + a = a
  | scalar, a => zero_add a
  | point₁, P => Point.infinity_add P
  | point₂, Q => Point.infinity_add Q

theorem add_identity : {κ : Kind} → (a : κ.Element) → a + 0 = a
  | scalar, a => add_zero a
  | point₁, P => Point.add_infinity P
  | point₂, Q => Point.add_infinity Q

end Kind

/-! ## Packed elements -/

namespace Packed

variable {κ : Kind} {sum : List (Packed κ.Element) → Packed κ.Element}

/-- Packed elements stand for the same scalars as the elements. -/
theorem isSummation_packed (hsum : ∀ ks, sum ks = of (Scheme.aggregate (ks.map element))) :
    IsSummation (fun (k : Packed κ.Element) x => k = of (κ.mul κ.one x)) Packed.add sum := by
  have h := κ.isSummation_aggregate
  refine ⟨?_, fun {ks xs} hks => ?_⟩
  · rintro _ _ x y rfl rfl
    exact congrArg of (h.add rfl rfl)
  · rw [hsum]
    have helement : List.Forall₂ (fun a x => a = κ.mul κ.one x) (ks.map element) xs :=
      List.forall₂_map_left_iff.2 (hks.imp fun k x hk => congrArg element hk)
    exact congrArg of (h.sum helement)

/-- However packed elements are added up, the sum is their packed aggregate. -/
theorem eval_eq_sum (hsum : ∀ ks, sum ks = of (Scheme.aggregate (ks.map element)))
    {ks : List (Packed κ.Element)} (hks : ∀ k ∈ ks, k.IsFaithful κ.Valid)
    {g : Grouping (Packed κ.Element)} (hperm : g.leaves.Perm ks) :
    g.eval Packed.add sum = sum ks := by
  refine (isSummation_packed hsum).eval_eq_sum (fun k hk => ?_) hperm
  obtain ⟨x, hx⟩ := Kind.valid_iff_mul.1 (hks k hk).valid
  exact ⟨x, (hks k hk).eq_of_iff.2 hx⟩

theorem IsFaithful.of_element {k : Packed κ.Element} (hk : k.IsFaithful κ.Valid) :
    of k.element = k := (hk.eq_of_iff.2 rfl).symm

end Packed

/-! ## Every way to add up -/

/-- However elements that runs reach are added up, two at a time or list by list and in any
    order, the encoding of the sum is that of the aggregate; and so for public keys, for
    signatures, and for points that are added up by their coordinates. The aggregate of
    nothing is the identity, which does not change what it is added to. The aggregate of `n`
    copies of an element is its product by `n`. -/
theorem grouping_coherent :
    (∀ (κ : Kind) (as : List κ.Element) (g : Grouping κ.Element),
        (∀ a ∈ as, Reachable (.bare κ) a) → g.leaves.Perm as →
          (format : Format κ.Element).encode (g.eval (· + ·) Scheme.aggregate) =
            (format : Format κ.Element).encode (Scheme.aggregate as)) ∧
      (∀ (ks : List PublicKey) (g : Grouping PublicKey),
        (∀ k ∈ ks, Reachable (.packed .point₂) k) → g.leaves.Perm ks →
          (g.eval Packed.add fun ks => (aggregatePublicKeys ks).value).serialize =
            (aggregatePublicKeys ks).value.serialize) ∧
      (∀ (ss : List Signature) (g : Grouping Signature),
        (∀ s ∈ ss, Reachable (.packed .point₁) s) → g.leaves.Perm ss →
          (g.eval Packed.add fun ss => (aggregateSignatures ss).value).serialize =
            (aggregateSignatures ss).value.serialize) ∧
      (∀ add, Jacobian.Adds G1.IsValid add → ∀ (Ps : List G1) (g : Grouping (Jacobian Fp)),
        (∀ P ∈ Ps, Reachable (.bare .point₁) P) → (g.leaves.map Jacobian.toPoint).Perm Ps →
          G1.encode (g.eval add fun Js => Js.foldl add .infinity).toPoint =
            G1.encode (Scheme.aggregate Ps)) ∧
      (∀ add, Jacobian.Adds G2.IsValid add → ∀ (Qs : List G2) (g : Grouping (Jacobian Fp2)),
        (∀ Q ∈ Qs, Reachable (.bare .point₂) Q) → (g.leaves.map Jacobian.toPoint).Perm Qs →
          G2.encode (g.eval add fun Js => Js.foldl add .infinity).toPoint =
            G2.encode (Scheme.aggregate Qs)) ∧
      (∀ κ : Kind, Scheme.aggregate ([] : List κ.Element) = 0 ∧
        ∀ a : κ.Element, 0 + a = a ∧ a + 0 = a) ∧
      ((aggregatePublicKeys []).value = .of 0 ∧ (aggregateSignatures []).value = .of 0 ∧
        ∀ (κ : Kind) (k : Packed κ.Element), Reachable (.packed κ) k →
          Packed.add (.of 0) k = k ∧ Packed.add k (.of 0) = k) ∧
      ∀ (κ : Kind) (a : κ.Element), Reachable (.bare κ) a → ∀ n : UInt64,
        (format : Format κ.Element).encode (Scheme.aggregate (List.replicate n.toNat a)) =
          (format : Format κ.Element).encode (κ.mul a (Residue.ofNat n.toNat)) := by
  refine ⟨fun κ as g has hperm => ?_, fun ks g hks hperm => ?_, fun ss g hss hperm => ?_,
    fun add hadd Ps g hPs hperm => ?_, fun add hadd Qs g hQs hperm => ?_,
    fun κ => ⟨rfl, fun a => ⟨Kind.identity_add a, Kind.add_identity a⟩⟩,
    ⟨rfl, rfl, fun κ k hk => ?_⟩, fun κ a ha n => ?_⟩
  · rw [Kind.eval_eq_aggregate (fun a ha => (has a ha).valid) hperm]
  · exact congrArg Packed.serialize
      (Packed.eval_eq_sum (κ := .point₂) (fun _ => rfl) (fun k hk => (hks k hk).valid) hperm)
  · exact congrArg Packed.serialize
      (Packed.eval_eq_sum (κ := .point₁) (fun _ => rfl) (fun s hs => (hss s hs).valid) hperm)
  · exact congrArg G1.encode (Jacobian.toPoint_eval (x := G1.base) (fun _ => G1.isValid_iff_smul)
      hadd (fun P hP => (hPs P hP).valid) hperm)
  · exact congrArg G2.encode (Jacobian.toPoint_eval (x := G2.base) (fun _ => G2.isValid_iff_smul)
      hadd (fun Q hQ => (hQs Q hQ).valid) hperm)
  · -- The sum is packed anew, as `k` was.
    rw [Packed.add, Packed.add, Packed.element_of, Kind.identity_add, Kind.add_identity,
      hk.valid.of_element]
    exact ⟨rfl, rfl⟩
  · rw [Kind.aggregate_replicate ha.valid]

/-- The generator, itself once more and its opposite, added up in another order and together
    with nothing: as points, as coordinates of several scales, and as signatures; and the
    generators as public keys and in three copies. -/
theorem grouping_generators :
    let P := G1.generator
    let Q := G2.generator
    let g : Grouping G1 := .pair (.group [.single (-P), .group []]) (.pair (.single P) (.single P))
    let gs : Grouping Signature :=
      .group [.single (.of (-P)), .pair (.single (.of P)) (.single (.of P))]
    let gk : Grouping PublicKey := .group [.group [.single (.of Q), .single (.of Q)], .group []]
    let gJ : Grouping (Jacobian Fp) :=
      .group [.single (.ofPoint (-P)), .pair (.single ⟨4, 16, 2⟩) (.single (.ofPoint P))]
    let gK : Grouping (Jacobian Fp2) := .pair (.single (.ofPoint Q)) (.group [.single (.ofPoint Q)])
    ((∀ a ∈ [P, P, -P], Reachable (.bare .point₁) a) ∧ g.leaves.Perm [P, P, -P] ∧
        (format : Format G1).encode (g.eval (· + ·) Scheme.aggregate) =
          (format : Format G1).encode (Scheme.aggregate [P, P, -P])) ∧
      ((∀ k ∈ [Packed.of Q, .of Q], Reachable (.packed .point₂) k) ∧
        gk.leaves.Perm [.of Q, .of Q] ∧
        (gk.eval Packed.add fun ks => (aggregatePublicKeys ks).value).serialize =
          (aggregatePublicKeys [.of Q, .of Q]).value.serialize) ∧
      ((∀ s ∈ [Packed.of P, .of P, .of (-P)], Reachable (.packed .point₁) s) ∧
        gs.leaves.Perm [.of P, .of P, .of (-P)] ∧
        (gs.eval Packed.add fun ss => (aggregateSignatures ss).value).serialize =
          (aggregateSignatures [.of P, .of P, .of (-P)]).value.serialize) ∧
      (Jacobian.Adds G1.IsValid Jacobian.add ∧ (gJ.leaves.map Jacobian.toPoint).Perm [P, P, -P] ∧
        G1.encode (gJ.eval Jacobian.add fun Js => Js.foldl Jacobian.add .infinity).toPoint =
          G1.encode (Scheme.aggregate [P, P, -P])) ∧
      (Jacobian.Adds G2.IsValid Jacobian.add ∧ (∀ a ∈ [Q, Q], Reachable (.bare .point₂) a) ∧
        (gK.leaves.map Jacobian.toPoint).Perm [Q, Q] ∧
        G2.encode (gK.eval Jacobian.add fun Js => Js.foldl Jacobian.add .infinity).toPoint =
          G2.encode (Scheme.aggregate [Q, Q])) ∧
      (format : Format G1).encode (Scheme.aggregate (List.replicate (3 : UInt64).toNat P)) =
        (format : Format G1).encode ((Residue.ofNat (3 : UInt64).toNat : Scalar) • P) := by
  intro P Q g gs gk gJ gK
  have hP : P.IsValid := G1.isValid_point G1.base
  have hQ : Q.IsValid := G2.isValid_point G2.base
  have hneg : (-P).IsValid := Point.OnCurve.neg hP
  have hPs : ∀ a ∈ [P, P, -P], Reachable (.bare .point₁) a := by
    simp only [List.forall_mem_cons, reachable_iff]
    exact ⟨hP, hP, hneg, nofun⟩
  have hQs : ∀ a ∈ [Q, Q], Reachable (.bare .point₂) a := by
    simp only [List.forall_mem_cons, reachable_iff]
    exact ⟨hQ, hQ, nofun⟩
  have hss : ∀ s ∈ [Packed.of P, .of P, .of (-P)], Reachable (.packed .point₁) s := by
    simp only [List.forall_mem_cons, reachable_iff]
    exact ⟨Packed.isFaithful_of hP, Packed.isFaithful_of hP, Packed.isFaithful_of hneg, nofun⟩
  have hks : ∀ k ∈ [Packed.of Q, .of Q], Reachable (.packed .point₂) k := by
    simp only [List.forall_mem_cons, reachable_iff]
    exact ⟨Packed.isFaithful_of hQ, Packed.isFaithful_of hQ, nofun⟩
  have hadd₁ : Jacobian.Adds G1.IsValid Jacobian.add := Jacobian.adds_add
  have hadd₂ : Jacobian.Adds G2.IsValid Jacobian.add := fun J K hJ hK =>
    Jacobian.adds_add J K hJ.1 hK.1
  have hg : g.leaves.Perm [P, P, -P] := by decide
  have hgk : gk.leaves.Perm [.of Q, .of Q] := by decide +kernel
  have hgs : gs.leaves.Perm [.of P, .of P, .of (-P)] := by decide +kernel
  have hgJ : (gJ.leaves.map Jacobian.toPoint).Perm [P, P, -P] := by decide +kernel
  have hgK : (gK.leaves.map Jacobian.toPoint).Perm [Q, Q] := by decide +kernel
  obtain ⟨hpoints, hkeys, hsigns, hcoords₁, hcoords₂, -, -, hcopies⟩ := grouping_coherent
  exact ⟨⟨hPs, hg, hpoints .point₁ _ g hPs hg⟩, ⟨hks, hgk, hkeys _ gk hks hgk⟩,
    ⟨hss, hgs, hsigns _ gs hss hgs⟩, ⟨hadd₁, hgJ, hcoords₁ _ hadd₁ _ gJ hPs hgJ⟩,
    ⟨hadd₂, hQs, hgK, hcoords₂ _ hadd₂ _ gK hQs hgK⟩,
    hcopies .point₁ P (hPs P List.mem_cons_self) 3⟩

end BlsBn254
