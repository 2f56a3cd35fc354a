import BlsBn254.Proofs.Curve.Order

/-!
# The subgroup of order `r` of the twist

The twist has a single subgroup of order `r` (`G2.card_eq_order_iff`): its elements are
taken to infinity by `r`, and all points that are so are multiples of the generator. So
a point passes the check of its order if and only if it belongs to that subgroup
(`G2.mem_orderSubgroup_iff`), and the points of `G2` are closed under the operations of
the group.
-/

namespace BlsBn254

/-- The number of elements of a subgroup takes them to zero. -/
theorem nsmul_eq_zero_of_mem {A : Type} [AddGroup A] {H : AddSubgroup A} {n : ℕ}
    (hcard : Nat.card H = n) {a : A} (ha : a ∈ H) : n • a = 0 := by
  subst hcard
  exact congrArg Subtype.val (card_nsmul_eq_zero' : Nat.card H • (⟨a, ha⟩ : H) = 0)

namespace G2

/-- The points of the twist that are multiples of the generator. -/
def orderSubgroup : AddSubgroup (PointOn twistConstant) := AddSubgroup.zmultiples base.1

theorem mem_orderSubgroup_of_order_nsmul {P : PointOn twistConstant} (hP : r • P = 0) :
    P ∈ orderSubgroup :=
  mem_zmultiples_of_nsmul_eq_zero prime_order (Torsion.addOrderOf_eq base_ne_zero) hP
    not_order_mul_order_dvd_card

theorem card_orderSubgroup : Nat.card orderSubgroup = r := by
  rw [orderSubgroup, Nat.card_zmultiples, Torsion.addOrderOf_eq base_ne_zero]

/-- It is the only subgroup of order `r`. -/
theorem card_eq_order_iff {H : AddSubgroup (PointOn twistConstant)} :
    Nat.card H = r ↔ H = orderSubgroup := by
  constructor
  · intro hcard
    -- The order takes its elements to infinity, so there is no room outside the multiples.
    have hle : H ≤ orderSubgroup := fun P hP =>
      mem_orderSubgroup_of_order_nsmul (nsmul_eq_zero_of_mem hcard hP)
    exact AddSubgroup.eq_of_le_of_card_ge hle (card_orderSubgroup.trans hcard.symm).le
  · rintro rfl
    exact card_orderSubgroup

/-- The check of the order is passed by the points of the subgroup. -/
theorem mem_orderSubgroup_iff {P : PointOn twistConstant} :
    P ∈ orderSubgroup ↔ InSubgroup P.point := by
  rw [InSubgroup, ← PointOn.point_nsmul]
  constructor
  · intro hP
    exact congrArg PointOn.point (nsmul_eq_zero_of_mem card_orderSubgroup hP)
  · intro hP
    exact mem_orderSubgroup_of_order_nsmul (PointOn.ext hP)

theorem isValid_iff_mem {P : G2} :
    P.IsValid ↔ ∃ hP : P.OnCurve twistConstant, ⟨P, hP⟩ ∈ orderSubgroup := by
  constructor
  · rintro ⟨hP, hsub⟩
    exact ⟨hP, mem_orderSubgroup_iff.2 hsub⟩
  · rintro ⟨hP, hmem⟩
    exact ⟨hP, mem_orderSubgroup_iff.1 hmem⟩

theorem IsValid.add {P Q : G2} (hP : P.IsValid) (hQ : Q.IsValid) : IsValid (P + Q) := by
  obtain ⟨x, rfl⟩ := isValid_iff.1 hP
  obtain ⟨y, rfl⟩ := isValid_iff.1 hQ
  exact isValid_point (x + y)

theorem IsValid.smul {P : G2} (hP : P.IsValid) (k : Scalar) : IsValid (k • P) := by
  obtain ⟨x, rfl⟩ := isValid_iff.1 hP
  rw [← Torsion.point_smul]
  exact isValid_point (k • x)

end G2

end BlsBn254
