import BlsBn254.Proofs.Field.Primality

/-!
# Inverses

The inverse of a residue is its power `m - 2`, whatever the residue is: zero is not told
apart, and its power is zero again. So every residue has an inverse, which is determined by
the product of the two (`Residue.inv_eq_iff`), and the inverse of a product or of an inverse
is what it is elsewhere also where zeroes are involved (`Fp.inv_total`).

Scalars have the same inverses, but zero is refused (`Scalar.inverse_eq_none_iff`,
`Scalar.inverse_eq_some_iff`).
-/

namespace BlsBn254

/-- A residue is inverse to another if their product is one, or if both are zero. -/
theorem Residue.inv_eq_iff {m : ℕ} [Modulus m] [Fact m.Prime] [Fact (2 < m)] {x y : Residue m} :
    x⁻¹ = y ↔ x * y = 1 ∨ (x = 0 ∧ y = 0) := by
  constructor
  · rintro rfl
    rcases eq_or_ne x 0 with rfl | hx
    · exact .inr ⟨rfl, inv_zero⟩
    · exact .inl (mul_inv_cancel₀ hx)
  · rintro (h | ⟨rfl, rfl⟩)
    · exact inv_eq_of_mul_eq_one_right h
    · exact inv_zero

/-! ## Scalars -/

namespace Scalar

variable {s t : Scalar}

/-- Zero alone has no inverse. -/
theorem inverse_eq_none_iff : s.inverse = none ↔ s = 0 := by
  rw [inverse]
  split_ifs with hs
  · exact iff_of_true rfl hs
  · simp [hs]

/-- A scalar is the inverse of another if their product is one. -/
theorem inverse_eq_some_iff : s.inverse = some t ↔ s * t = 1 := by
  rw [inverse]
  split_ifs with hs
  · simp [hs]
  · rw [Option.some.injEq, Residue.inv_eq_iff, or_iff_left fun h => hs h.1]

end Scalar

/-! ## The base field -/

namespace Fp

theorem inverse_exponent :
    p - 2 = 0x30644e72e131a029b85045b68181585d97816a916871ca8d3c208c16d87cfd45 := by
  decide

/-- The power with a fixed exponent, reached by squaring and multiplying, is the inverse of
    every element of the base field: of two elements one is the inverse of the other if
    their product is one, or if both are zero. So the product of an element other than zero
    and its inverse is one, and the inverse of zero is zero; the inverse of a product is the
    product of the inverses, and the inverse of an inverse is the element itself, of all
    elements. -/
theorem inv_total :
    (∀ x : Fp, x⁻¹ =
        power x 0x30644e72e131a029b85045b68181585d97816a916871ca8d3c208c16d87cfd45) ∧
      (∀ x y : Fp, x⁻¹ = y ↔ x * y = 1 ∨ (x = 0 ∧ y = 0)) ∧
      (∀ x : Fp, x ≠ 0 → x * x⁻¹ = 1) ∧ (0 : Fp)⁻¹ = 0 ∧
      (∀ x y : Fp, (x * y)⁻¹ = x⁻¹ * y⁻¹) ∧ ∀ x : Fp, x⁻¹⁻¹ = x := by
  refine ⟨fun x => ?_, fun x y => Residue.inv_eq_iff, fun x hx => mul_inv_cancel₀ hx, inv_zero,
    mul_inv, inv_inv⟩
  rw [← inverse_exponent]
  rfl

/-- One half is the number `(p + 1) / 2`. -/
theorem inv_two : (2 : Fp) ≠ 0 ∧ (2 : Fp) * 2⁻¹ = 1 ∧ (2 : Fp)⁻¹ = .ofNat ((p + 1) / 2) := by
  have hne : (2 : Fp) ≠ 0 := by decide
  obtain ⟨-, hiff, hmul, -⟩ := inv_total
  exact ⟨hne, hmul 2 hne, (hiff 2 _).2 (.inl (by decide))⟩

end Fp

end BlsBn254
