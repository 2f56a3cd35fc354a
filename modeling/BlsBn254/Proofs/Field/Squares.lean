import BlsBn254.Proofs.Field.Primality

/-!
# Squares and cubes

Half of the elements of a finite field of odd order, apart from zero, are
squares, and the product of two that are not is one: so if a product is a square,
one of any three factors is (`isSquare_of_isSquare_mul`). If three divides the
order less one, a cube becomes one when it is raised to a third of the order less
one (`pow_third_of_cube`), which shows of a given element that it is no cube.

As the order of the base field is three modulo four, `-1` is no square there, and
`Fp.sqrt` finds a square root of every square (`Fp.sqrt_mul_self`) and tells
squares from other elements (`Fp.sqrt_found_iff`).

Of an element other than zero and its opposite, one is a square and the other is not
(`Fp.isSquare_neg_iff`). So a square has one *principal* root, which is a square
itself, and that is the one found; where there is no root, what is returned is the
principal root of the opposite (`Fp.sqrt_principal`).
-/

namespace BlsBn254

section FiniteField

variable {F : Type} [Field F] [Fintype F]

/-- Of the three factors of a square, one is a square. -/
theorem isSquare_of_isSquare_mul {a b c : F} (h : IsSquare (a * b * c)) :
    IsSquare a ∨ IsSquare b ∨ IsSquare c := by
  classical
  by_contra hne
  push Not at hne
  obtain ⟨ha, hb, hc⟩ := hne
  -- Each factor has the character `-1`, and so has their product.
  rw [← quadraticChar_neg_one_iff_not_isSquare] at ha hb hc
  have habc : quadraticChar F (a * b * c) = -1 := by
    rw [map_mul, map_mul, ha, hb, hc]
    norm_num
  exact quadraticChar_neg_one_iff_not_isSquare.1 habc h

/-- A cube is sent to one by the power of a third of the order less one. -/
theorem pow_third_of_cube (hcard : 3 ∣ Fintype.card F - 1) {c x : F} (hc : c ≠ 0)
    (hx : x * x * x = c) : c ^ ((Fintype.card F - 1) / 3) = 1 := by
  have hx₀ : x ≠ 0 := by
    rintro rfl
    rw [mul_zero] at hx
    exact hc hx.symm
  calc c ^ ((Fintype.card F - 1) / 3) = x ^ (3 * ((Fintype.card F - 1) / 3)) := by
        rw [pow_mul, ← hx, pow_succ, pow_two]
    _ = 1 := by rw [Nat.mul_div_cancel' hcard, FiniteField.pow_card_sub_one_eq_one x hx₀]

end FiniteField

namespace Fp

theorem card_eq : Fintype.card Fp = p := Residue.card_eq

/-- The power of the order is the element itself. -/
theorem pow_modulus (x : Fp) : x ^ p = x := by
  have h := FiniteField.pow_card x
  rwa [card_eq] at h

/-- There is no square root of `-1` in the base field. -/
theorem not_isSquare_neg_one : ¬IsSquare (-1 : Fp) := by
  rw [FiniteField.isSquare_neg_one_iff, card_eq]
  decide

/-- A sum of two squares is zero only if both are. -/
theorem eq_zero_of_mul_self_add_mul_self {a b : Fp} (h : a * a + b * b = 0) : a = 0 ∧ b = 0 := by
  rcases eq_or_ne b 0 with rfl | hb
  · rw [mul_zero, add_zero] at h
    exact ⟨mul_self_eq_zero.1 h, rfl⟩
  · -- Otherwise the quotient would be a square root of `-1`.
    refine absurd ⟨a * b⁻¹, ?_⟩ not_isSquare_neg_one
    field_simp
    linear_combination -h

/-- Of an element other than zero and its opposite, one is a square and the other is not. -/
theorem isSquare_neg_iff {y : Fp} (hy : y ≠ 0) : IsSquare (-y) ↔ ¬IsSquare y := by
  constructor
  · rintro ⟨a, ha⟩ ⟨b, rfl⟩
    have hsum : a * a + b * b = 0 := by rw [← ha, neg_add_cancel]
    obtain ⟨-, rfl⟩ := eq_zero_of_mul_self_add_mul_self hsum
    exact hy (mul_zero 0)
  · intro hno
    -- The product of `-1`, the element and its opposite is a square.
    have hprod : IsSquare (-1 * y * -y) := ⟨y, by ring⟩
    exact ((isSquare_of_isSquare_mul hprod).resolve_left not_isSquare_neg_one).resolve_left hno

/-- Elements with the same square are equal if both are squares, or neither is. -/
theorem eq_of_sq_eq {a b : Fp} (h : a ^ 2 = b ^ 2) (hsq : IsSquare a ↔ IsSquare b) : a = b := by
  rcases sq_eq_sq_iff_eq_or_eq_neg.1 h with rfl | rfl
  · rfl
  · rcases eq_or_ne b 0 with rfl | hb
    · exact neg_zero
    · exact (iff_not_self (hsq.symm.trans (isSquare_neg_iff hb))).elim

/-! ## Square roots -/

theorem sqrt_exponent :
    (p + 1) / 4 = 0x0c19139cb84c680a6e14116da060561765e05aa45a1c72a34f082305b61f3f52 := by
  decide

theorem sqrt_root (x : Fp) : (sqrt x).1 = x ^ ((p + 1) / 4) := rfl

theorem sqrt_found (x : Fp) : (sqrt x).2 = true ↔ (sqrt x).1 * (sqrt x).1 = x :=
  decide_eq_true_iff

/-- The root of a square is one. -/
theorem sqrt_mul_self {x : Fp} (hx : IsSquare x) : (sqrt x).1 * (sqrt x).1 = x := by
  obtain ⟨y, rfl⟩ := hx
  have hp : (p + 1) / 4 + (p + 1) / 4 + ((p + 1) / 4 + (p + 1) / 4) = p + 1 := by decide
  calc (sqrt (y * y)).1 * (sqrt (y * y)).1 = y ^ (p + 1) := by
        rw [sqrt_root, ← pow_add, mul_pow, ← pow_add, hp]
    _ = y * y := by rw [pow_succ, pow_modulus]

/-- The root of a square is a square itself, being a power of it. -/
theorem isSquare_sqrt {x : Fp} (hx : IsSquare x) : IsSquare (sqrt x).1 := by
  rw [sqrt_root]
  exact hx.pow _

/-- A square root is found for the squares alone. -/
theorem sqrt_found_iff (x : Fp) : (sqrt x).2 = true ↔ IsSquare x := by
  rw [sqrt_found]
  exact ⟨fun h => ⟨_, h.symm⟩, sqrt_mul_self⟩

/-- For opposite elements the same power is returned, as its exponent is even. -/
theorem sqrt_neg (x : Fp) : (sqrt (-x)).1 = (sqrt x).1 := by
  have heven : Even ((p + 1) / 4) := by decide
  rw [sqrt_root, sqrt_root, heven.neg_pow]

/-- Where there is no root, a root of the opposite is returned. -/
theorem sqrt_mul_self_of_not_isSquare {x : Fp} (hx : ¬IsSquare x) :
    (sqrt x).1 * (sqrt x).1 = -x := by
  have hne : x ≠ 0 := by
    rintro rfl
    exact hx IsSquare.zero
  rw [← sqrt_neg]
  exact sqrt_mul_self ((isSquare_neg_iff hne).2 hx)

/-- The root that is found of `y²` is the one of `y` and `-y` that is a square. -/
theorem sqrt_sq_eq_iff (y z : Fp) :
    sqrt (y ^ 2) = (z, true) ↔ (z = y ∨ z = -y) ∧ IsSquare z := by
  have hy : IsSquare (y ^ 2) := IsSquare.sq y
  have hroot : (sqrt (y ^ 2)).1 ^ 2 = y ^ 2 := by rw [pow_two (sqrt (y ^ 2)).1, sqrt_mul_self hy]
  rw [← sq_eq_sq_iff_eq_or_eq_neg]
  constructor
  · intro h
    obtain rfl : (sqrt (y ^ 2)).1 = z := congrArg Prod.fst h
    exact ⟨hroot, isSquare_sqrt hy⟩
  · rintro ⟨hz, hsq⟩
    have hfst : (sqrt (y ^ 2)).1 = z :=
      eq_of_sq_eq (hroot.trans hz.symm) (iff_of_true (isSquare_sqrt hy) hsq)
    exact Prod.ext hfst ((sqrt_found_iff _).2 hy)

/-- A root of `x` is found if and only if there is one. What is found is a root, and a
    square itself; what is returned otherwise is a root of `-x`. So of `y²` the one of `y`
    and `-y` that is a square is found. What is returned is in any case the power with a
    fixed exponent. -/
theorem sqrt_principal :
    (∀ x : Fp, ((sqrt x).2 = true ↔ ∃ y : Fp, y ^ 2 = x) ∧
        ((sqrt x).2 = true → (sqrt x).1 ^ 2 = x ∧ IsSquare (sqrt x).1) ∧
        ((sqrt x).2 = false → (sqrt x).1 ^ 2 = -x)) ∧
      (∀ y z : Fp, sqrt (y ^ 2) = (z, true) ↔ (z = y ∨ z = -y) ∧ IsSquare z) ∧
      ∀ x : Fp, (sqrt x).1 =
        x ^ 0x0c19139cb84c680a6e14116da060561765e05aa45a1c72a34f082305b61f3f52 := by
  refine ⟨fun x => ⟨?_, fun h => ?_, fun h => ?_⟩, sqrt_sq_eq_iff, fun x => ?_⟩
  · rw [sqrt_found_iff, isSquare_iff_exists_sq]
    simp only [eq_comm]
  · have hx := (sqrt_found_iff x).1 h
    exact ⟨by rw [pow_two, sqrt_mul_self hx], isSquare_sqrt hx⟩
  · rw [← Bool.not_eq_true, sqrt_found_iff] at h
    rw [pow_two, sqrt_mul_self_of_not_isSquare h]
  · rw [sqrt_root, sqrt_exponent]

/-- Four has a root, and minus one has none. -/
theorem sqrt_four_neg_one :
    (sqrt 4).2 = true ∧ (sqrt 4).1 ^ 2 = 4 ∧ IsSquare (sqrt 4).1 ∧ (sqrt (-1)).2 = false ∧
      (sqrt (-1)).1 ^ 2 = - -1 := by
  have hfour : (sqrt 4).2 = true := by decide +kernel
  have hone : (sqrt (-1)).2 = false := by decide +kernel
  obtain ⟨hsqrt, -⟩ := sqrt_principal
  obtain ⟨-, hroot, -⟩ := hsqrt 4
  obtain ⟨-, -, hopposite⟩ := hsqrt (-1)
  exact ⟨hfour, (hroot hfour).1, (hroot hfour).2, hone, hopposite hone⟩

end Fp

end BlsBn254
