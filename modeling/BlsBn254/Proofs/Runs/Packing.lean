import BlsBn254.Proofs.Codec.Order
import BlsBn254.Proofs.Runs.Validity

/-!
# Packed elements in runs

Packed elements are compared in several ways: equality looks at the bytes and at the
element, the order, the hash and the encoding at the bytes alone. These ways agree on
packed elements that are kept together with their own encoding
(`Packed.IsFaithful.tfae_eq`), and runs reach no others. So it makes no difference by
which operations a private key, a public key or a signature was reached
(`reachable_packed_coherent`).
-/

namespace BlsBn254

/-! ## Ways to compare -/

namespace Packed

section Order

variable {E : Type}

theorem compare_eq_iff {k l : Packed E} : compare k l = .eq ↔ k.raw = l.raw :=
  Std.LawfulEqCmp.compare_eq_iff_eq (a := k.raw) (b := l.raw)

theorem compare_swap (k l : Packed E) : compare k l = (compare l k).swap :=
  Std.OrientedCmp.eq_swap (a := k.raw) (b := l.raw)

theorem compare_isLE_trans {k l m : Packed E} (hkl : (compare k l).isLE)
    (hlm : (compare l m).isLE) : (compare k m).isLE :=
  Std.TransCmp.isLE_trans (a := k.raw) (b := l.raw) (c := m.raw) hkl hlm

end Order

variable {E : Type} [Formatted E] {Valid : E → Prop}

theorem sameHash_iff {k l : Packed E} : sameHash k l = true ↔ k.raw = l.raw := beq_iff_eq

namespace IsFaithful

variable {k l : Packed E}

theorem eq_iff_element_eq (hk : k.IsFaithful Valid) (hl : l.IsFaithful Valid) :
    k = l ↔ k.element = l.element := by
  rw [← hk.eq_of_iff, hl.eq_of_iff.2 rfl, element_of]

theorem raw_eq_iff (h : (format : Format E).IsCanonical Valid) (hk : k.IsFaithful Valid)
    (hl : l.IsFaithful Valid) : k.raw = l.raw ↔ k = l := by
  constructor
  · intro heq
    rw [hk.raw_eq, hl.raw_eq] at heq
    exact (hk.eq_iff_element_eq hl).2 (h.encode_injOn hk.valid hl.valid heq)
  · rintro rfl
    rfl

/-- All ways to compare packed elements agree. -/
theorem tfae_eq [DecidableEq E] (h : (format : Format E).IsCanonical Valid)
    (hk : k.IsFaithful Valid) (hl : l.IsFaithful Valid) :
    [(k == l) = true, k.element = l.element, k.serialize = l.serialize, compare k l = .eq,
      sameHash k l = true].TFAE := by
  have hraw := hk.raw_eq_iff h hl
  tfae_have 1 ↔ 2 := beq_iff_eq.trans (hk.eq_iff_element_eq hl)
  tfae_have 1 ↔ 3 := beq_iff_eq.trans hraw.symm
  tfae_have 4 ↔ 3 := compare_eq_iff
  tfae_have 5 ↔ 3 := sameHash_iff
  tfae_finish

/-- Packed points are equal if their coordinates are those of the same point. -/
theorem beq_iff_samePoint {F : Type} [Field F] [DecidableEq F] [Formatted (Point F)]
    {Valid : Point F → Prop} {k l : Packed (Point F)} (hk : k.IsFaithful Valid)
    (hl : l.IsFaithful Valid) {J K : Jacobian F} (hJ : J.toPoint = k.element)
    (hK : K.toPoint = l.element) : (k == l) = true ↔ J.SamePoint K := by
  rw [beq_iff_eq, hk.eq_iff_element_eq hl, ← hJ, ← hK, Jacobian.toPoint_eq_toPoint_iff]

end IsFaithful

end Packed

/-- Private keys have the order of the numbers that they are. -/
theorem PrivateKey.compare_eq {k l : PrivateKey} (hk : k.IsFaithful fun _ => True)
    (hl : l.IsFaithful fun _ => True) :
    compare k l = compare k.element.val l.element.val := calc
  compare k l = compare k.raw l.raw := rfl
  _ = compare k.element.encode l.element.encode := by rw [hk.raw_eq, hl.raw_eq]; rfl
  _ = compare k.element.val l.element.val := Residue.compare_encode _ _

/-! ## What runs reach -/

/-- Packed elements that runs reach, whatever their operations, are kept together with
    their own encoding, which is made of zeroes for the identity alone. So they are equal if
    and only if their elements are, their encodings are, their order says so, or they enter
    every hash alike. The order is total, and on private keys it is that of the numbers.
    The coordinates in which a point was reached make no difference either. -/
theorem reachable_packed_coherent :
    (∀ (κ : Kind) (k : Packed κ.Element), Reachable (.packed κ) k →
        k.raw = (format : Format κ.Element).encode k.element ∧
          (k.element = 0 ↔ k.raw = Bytes.zeros (format : Format κ.Element).size)) ∧
      (∀ (κ : Kind) (k l : Packed κ.Element), Reachable (.packed κ) k → Reachable (.packed κ) l →
        [(k == l) = true, k.element = l.element, k.serialize = l.serialize, compare k l = .eq,
          sameHash k l = true].TFAE) ∧
      (∀ (κ : Kind) (k l m : Packed κ.Element), compare k l = (compare l k).swap ∧
        ((compare k l).isLE → (compare l m).isLE → (compare k m).isLE)) ∧
      (∀ k l : PrivateKey, Reachable (.packed .scalar) k → Reachable (.packed .scalar) l →
        compare k l = compare k.element.val l.element.val) ∧
      (∀ (k l : PublicKey) (J K : Jacobian Fp2), Reachable (.packed .point₂) k →
        Reachable (.packed .point₂) l → J.toPoint = k.element → K.toPoint = l.element →
        ((k == l) = true ↔ J.SamePoint K)) ∧
      ∀ (s t : Signature) (J K : Jacobian Fp), Reachable (.packed .point₁) s →
        Reachable (.packed .point₁) t → J.toPoint = s.element → K.toPoint = t.element →
        ((s == t) = true ↔ J.SamePoint K) := by
  refine ⟨fun κ k hk => ⟨hk.valid.raw_eq, ?_⟩, fun κ k l hk hl => ?_, fun κ k l m => ?_,
    fun k l hk hl => ?_, fun k l J K hk hl hJ hK => ?_, fun s t J K hs ht hJ hK => ?_⟩
  · rw [hk.valid.raw_eq, Kind.encode_eq_zeros_iff hk.valid.valid]
  · exact Packed.IsFaithful.tfae_eq κ.canonical hk.valid hl.valid
  · exact ⟨Packed.compare_swap k l, Packed.compare_isLE_trans⟩
  · exact PrivateKey.compare_eq hk.valid hl.valid
  · exact Packed.IsFaithful.beq_iff_samePoint hk.valid hl.valid hJ hK
  · exact Packed.IsFaithful.beq_iff_samePoint hs.valid ht.valid hJ hK

/-- A wiped private key is zero and comes before one, which comes before two; the public
    key of two is the double of that of one; and the identity signature is the same in all
    coordinates. -/
theorem two_routes_coherent :
    let one : PrivateKey := .of 1
    let two : PrivateKey := .of 2
    let wiped : PrivateKey := one.wipe
    let k : PublicKey := one.publicKey.add one.publicKey
    let l : PublicKey := two.publicKey
    let s : Signature := .of 0
    let J : Jacobian Fp := ⟨5, 7, 0⟩
    (Reachable (.packed .scalar) one ∧ Reachable (.packed .scalar) two ∧ compare one two = .lt) ∧
      (Reachable (.packed .scalar) wiped ∧ wiped.element = 0 ∧ (compare wiped two).isLE) ∧
      (Reachable (.packed .point₂) k ∧ Reachable (.packed .point₂) l ∧
        k.raw = (format : Format G2).encode k.element ∧ k.serialize = l.serialize ∧
        (Jacobian.ofPoint k.element).SamePoint (Jacobian.ofPoint l.element)) ∧
      (Reachable (.packed .point₁) s ∧ J.toPoint = s.element ∧
        J.SamePoint (Jacobian.ofPoint s.element)) := by
  intro one two wiped k l s J
  have hone : Reachable (.packed .scalar) one :=
    ⟨[⟨_, .number 1⟩, ⟨_, .pack .scalar 0⟩], by decide +kernel⟩
  have htwo : Reachable (.packed .scalar) two :=
    ⟨[⟨_, .number 2⟩, ⟨_, .pack .scalar 0⟩], by decide +kernel⟩
  have hwiped : Reachable (.packed .scalar) wiped :=
    ⟨[⟨_, .number 1⟩, ⟨_, .pack .scalar 0⟩, ⟨_, .keyWipe 0⟩], by decide +kernel⟩
  have hk : Reachable (.packed .point₂) k :=
    ⟨[⟨_, .number 1⟩, ⟨_, .pack .scalar 0⟩, ⟨_, .keyPublic 0⟩, ⟨_, .addPacked .point₂ 0 0⟩],
      by decide +kernel⟩
  have hl : Reachable (.packed .point₂) l :=
    ⟨[⟨_, .number 2⟩, ⟨_, .pack .scalar 0⟩, ⟨_, .keyPublic 0⟩], by decide +kernel⟩
  have hs : Reachable (.packed .point₁) s :=
    ⟨[⟨_, .zero .point₁⟩, ⟨_, .pack .point₁ 0⟩], by decide +kernel⟩
  have hJ : J.toPoint = s.element := Jacobian.toPoint_of_eq_zero rfl
  obtain ⟨hraw, htfae, htotal, horder, hpublic, hsignature⟩ := reachable_packed_coherent
  have hkl := htfae .point₂ k l hk hl
  have helement : k.element = l.element := by decide +kernel
  refine ⟨⟨hone, htwo, (horder one two hone htwo).trans (by decide)⟩,
    ⟨hwiped, (hraw .scalar wiped hwiped).2.2 rfl,
      (htotal .scalar wiped one two).2 (by decide +kernel) (by decide +kernel)⟩,
    ⟨hk, hl, (hraw .point₂ k hk).1, (hkl.out 1 2).1 helement, ?_⟩, hs, hJ, ?_⟩
  · exact (hpublic k l _ _ hk hl (Jacobian.toPoint_ofPoint _) (Jacobian.toPoint_ofPoint _)).1
      ((hkl.out 0 1).2 helement)
  · exact (hsignature s s J _ hs hs hJ (Jacobian.toPoint_ofPoint _)).1 (beq_self_eq_true s)

end BlsBn254
