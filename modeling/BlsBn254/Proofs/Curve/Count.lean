import BlsBn254.Proofs.Curve.Multiple

/-!
# Counting the points of a curve

A first coordinate has at most two second coordinates, so that a curve over a
field with `q` elements has at most `2 q + 1` points (`PointOn.card_le`). That is
a crude bound, but enough to count the points of a curve with many points of
known order: if `n` divides the number of points, and the bound is less than
`3 n`, there are `n` points or twice as many, and twice as many would include one
of order two (`card_eq_of_dvd`). A point of order two has a second coordinate
zero, so there is none if `x³ + b` has no root
(`PointOn.eq_zero_of_two_nsmul_eq_zero`).

If the number of points is not divisible by the square of a prime, the points
that the prime takes to infinity are the multiples of any one of them
(`mem_zmultiples_of_nsmul_eq_zero`).
-/

namespace BlsBn254

/-! ## Finite groups -/

section Finite

variable {A : Type} [AddCommGroup A] [Finite A]

/-- A group without elements of order two has `n` elements if it has less than
    `3 n` and `n` divides their number. -/
theorem card_eq_of_dvd {n : ℕ} (h₂ : ∀ a : A, 2 • a = 0 → a = 0) (hdvd : n ∣ Nat.card A)
    (hlt : Nat.card A < 3 * n) : Nat.card A = n := by
  obtain ⟨k, hk⟩ := hdvd
  have hk₃ : k < 3 := by
    by_contra hle
    have := Nat.mul_le_mul_left n (not_lt.1 hle)
    omega
  interval_cases k
  · exact absurd hk Nat.card_pos.ne'
  · rw [hk, mul_one]
  · -- An even number of elements includes one of order two.
    obtain ⟨a, ha⟩ := exists_prime_addOrderOf_dvd_card' 2 (hk ▸ dvd_mul_left 2 n : 2 ∣ Nat.card A)
    have ha₀ : a = 0 := h₂ a (ha ▸ addOrderOf_nsmul_eq_zero a)
    rw [ha₀, addOrderOf_zero] at ha
    exact absurd ha (by decide)

omit [Finite A] in
/-- The elements that a prime takes to zero are the multiples of one of them, if
    its square does not divide the number of elements. -/
theorem mem_zmultiples_of_nsmul_eq_zero {q : ℕ} (hq : q.Prime) {g t : A} (hg : addOrderOf g = q)
    (ht : q • t = 0) (hsq : ¬q * q ∣ Nat.card A) : t ∈ AddSubgroup.zmultiples g := by
  by_contra hmem
  apply hsq
  -- The class of `t` modulo the multiples of `g` has the order `q`, too: the number of
  -- elements is divisible by the product of the two orders.
  have hclass : addOrderOf (t : A ⧸ AddSubgroup.zmultiples g) = q := by
    have : Fact q.Prime := ⟨hq⟩
    refine addOrderOf_eq_prime ?_ fun h => hmem ((QuotientAddGroup.eq_zero_iff t).1 h)
    rw [← QuotientAddGroup.mk_nsmul, ht, QuotientAddGroup.mk_zero]
  rw [AddSubgroup.card_eq_card_quotient_mul_card_addSubgroup (AddSubgroup.zmultiples g),
    Nat.card_zmultiples, hg]
  exact mul_dvd_mul_right (hclass ▸ addOrderOf_dvd_natCard _) q

end Finite

/-! ## Points -/

namespace PointOn

variable {F : Type} [Field F] {b : F}

/-- A second coordinate over `x`, if there is one. -/
noncomputable def someY (b x : F) : F :=
  Classical.epsilon fun y => (Point.affine x y).OnCurve b

/-- The first coordinate of a point, with whether the second is the chosen one. -/
noncomputable def code : PointOn b → Option (F × Prop)
  | ⟨.infinity, _⟩ => none
  | ⟨.affine x y, _⟩ => some (x, y = someY b x)

/-- A point is known from its first coordinate and one of two choices. -/
theorem code_injective : Function.Injective (code (b := b)) := by
  rintro ⟨_ | ⟨x, y₁⟩, h₁⟩ ⟨_ | ⟨x₂, y₂⟩, h₂⟩ h
  · rfl
  · cases h
  · cases h
  obtain ⟨rfl, hy⟩ := Prod.mk.inj (Option.some.inj h)
  have hex : ∃ y, (Point.affine x y).OnCurve b := ⟨y₁, h₁⟩
  have hsome : (Point.affine x (someY b x)).OnCurve b := Classical.epsilon_spec hex
  have hxy : y₁ = y₂ := by
    rcases eq_or_ne y₁ (someY b x) with hc | hc
    · exact hc.trans (hy ▸ hc : y₂ = someY b x).symm
    · -- Both are opposite to the chosen one.
      have e₁ := (h₁.eq_or_add_eq_zero hsome).resolve_left hc
      have e₂ := (h₂.eq_or_add_eq_zero hsome).resolve_left (hy ▸ hc)
      exact add_right_cancel (e₁.trans e₂.symm)
  exact PointOn.ext (congrArg (Point.affine x) hxy)

variable [Fintype F]

instance : Finite (PointOn b) := Finite.of_injective _ code_injective

/-- There are at most two points for each first coordinate, and the point at
    infinity. -/
theorem card_le : Nat.card (PointOn b) ≤ 2 * Fintype.card F + 1 := calc
  Nat.card (PointOn b) ≤ Nat.card (Option (F × Prop)) :=
    Nat.card_le_card_of_injective _ code_injective
  _ = 2 * Fintype.card F + 1 := by
    rw [Finite.card_option, Nat.card_prod, Nat.card_eq_fintype_card, Nat.card_eq_fintype_card,
      Fintype.card_prop, mul_comm]

omit [Fintype F] in
/-- There is no point of order two if `x³ + b` has no root. -/
theorem eq_zero_of_two_nsmul_eq_zero [DecidableEq F] [(weierstrass b).IsElliptic]
    (hroot : ∀ x : F, Point.ySquared b x ≠ 0) {P : PointOn b} (hP : 2 • P = 0) : P = 0 := by
  rcases P with ⟨_ | ⟨x, y⟩, h⟩
  · rfl
  rw [two_nsmul, ← eq_neg_iff_add_eq_zero, PointOn.ext_iff] at hP
  have hy : y = -y := (Point.affine.inj hP).2
  -- A point that is its own opposite has the second coordinate zero.
  have hy₀ : y = 0 := by
    have h₂ : (2 : F) * y = 0 := by linear_combination hy
    exact (mul_eq_zero.1 h₂).resolve_left (two_ne_zero_of_isElliptic (b := b))
  refine absurd (Eq.symm h) ?_
  rw [hy₀, mul_zero]
  exact hroot x

end PointOn

end BlsBn254
