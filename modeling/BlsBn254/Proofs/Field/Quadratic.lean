import BlsBn254.Proofs.Field.Squares

/-!
# The quadratic extension as a field

The laws of a commutative ring for `Fp2` follow from those of the base field,
coefficient by coefficient. As `-1` is no square in the base field, the norm of
an element is zero for zero alone (`Fp2.norm_eq_zero_iff`), so that the conjugate
over the norm is the inverse and `Fp2` is a field, of order `p * p`. Its powers are
those of the binary method (`power_eq_pow`).
-/

namespace BlsBn254

/-- The binary method computes the powers in any monoid. -/
theorem power_eq_pow {M : Type} [Monoid M] (a : M) (n : ℕ) : power a n = a ^ n := by
  -- As for residues: what is reached at `k` is the power `k`.
  refine binaryMethod_rel (R := fun k b => b = a ^ k) (pow_zero a).symm ?_ ?_ n
  · intro k b hb
    rw [hb, two_mul, pow_add]
  · intro k b hb
    rw [hb, pow_succ]

namespace Fp2

theorem re_zero : (0 : Fp2).re = 0 := rfl

theorem im_zero : (0 : Fp2).im = 0 := rfl

theorem re_one : (1 : Fp2).re = 1 := rfl

theorem im_one : (1 : Fp2).im = 0 := rfl

instance : NatCast Fp2 := ⟨fun n => ofBase n⟩

instance : IntCast Fp2 := ⟨fun n => ofBase n⟩

instance : CommRing Fp2 where
  add_assoc a b c := Fp2.ext (add_assoc _ _ _) (add_assoc _ _ _)
  zero_add a := Fp2.ext (zero_add _) (zero_add _)
  add_zero a := Fp2.ext (add_zero _) (add_zero _)
  add_comm a b := Fp2.ext (add_comm _ _) (add_comm _ _)
  neg_add_cancel a := Fp2.ext (neg_add_cancel _) (neg_add_cancel _)
  sub_eq_add_neg a b := Fp2.ext (sub_eq_add_neg _ _) (sub_eq_add_neg _ _)
  nsmul := nsmulRec
  zsmul := zsmulRec
  natCast_zero := Fp2.ext Nat.cast_zero rfl
  natCast_succ n := Fp2.ext (Nat.cast_succ n) (add_zero _).symm
  intCast_ofNat n := Fp2.ext (Int.cast_natCast n) rfl
  intCast_negSucc n := Fp2.ext (Int.cast_negSucc n) neg_zero.symm
  mul_assoc a b c := by
    ext1
    · simp only [re_mul, im_mul]
      ring
    · simp only [re_mul, im_mul]
      ring
  one_mul a := by
    ext1
    · rw [re_mul, re_one, im_one]
      ring
    · rw [im_mul, re_one, im_one]
      ring
  mul_one a := by
    ext1
    · rw [re_mul, re_one, im_one]
      ring
    · rw [im_mul, re_one, im_one]
      ring
  mul_comm a b := by
    ext1
    · rw [re_mul, re_mul]
      ring
    · rw [im_mul, im_mul]
      ring
  left_distrib a b c := by
    ext1
    · simp only [re_mul, re_add, im_add]
      ring
    · simp only [im_mul, re_add, im_add]
      ring
  right_distrib a b c := by
    ext1
    · simp only [re_mul, re_add, im_add]
      ring
    · simp only [im_mul, re_add, im_add]
      ring
  zero_mul a := by
    ext1
    · rw [re_mul, re_zero, im_zero]
      ring
    · rw [im_mul, re_zero, im_zero]
      ring
  mul_zero a := by
    ext1
    · rw [re_mul, re_zero, im_zero]
      ring
    · rw [im_mul, re_zero, im_zero]
      ring

/-- Zero alone has the norm zero. -/
theorem norm_eq_zero_iff (a : Fp2) : a.norm = 0 ↔ a = 0 := by
  constructor
  · intro h
    obtain ⟨hre, him⟩ := Fp.eq_zero_of_mul_self_add_mul_self h
    exact Fp2.ext hre him
  · rintro rfl
    rw [norm, re_zero, im_zero, mul_zero, add_zero]

theorem re_inv (a : Fp2) : a⁻¹.re = a.re * a.norm⁻¹ := rfl

theorem im_inv (a : Fp2) : a⁻¹.im = -a.im * a.norm⁻¹ := rfl

instance : Field Fp2 where
  exists_pair_ne := ⟨0, 1, fun h => zero_ne_one (congrArg re h)⟩
  mul_inv_cancel a ha := by
    have hn : a.norm * a.norm⁻¹ = 1 := mul_inv_cancel₀ (mt (norm_eq_zero_iff a).1 ha)
    ext1
    · rw [re_mul, re_inv, im_inv, re_one, ← hn, norm]
      ring
    · rw [im_mul, re_inv, im_inv, im_one]
      ring
  inv_zero := by
    ext1
    · rw [re_inv, re_zero, zero_mul]
    · rw [im_inv, im_zero, neg_zero, zero_mul]
  nnqsmul := _
  nnqsmul_def := fun _ _ => rfl
  qsmul := _
  qsmul_def := fun _ _ => rfl

/-- An element is given by its two coefficients. -/
def equivProd : Fp2 ≃ Fp × Fp where
  toFun a := (a.re, a.im)
  invFun c := ⟨c.1, c.2⟩

instance : Fintype Fp2 := Fintype.ofEquiv (Fp × Fp) equivProd.symm

theorem card_eq : Fintype.card Fp2 = p * p := calc
  Fintype.card Fp2 = Fintype.card (Fp × Fp) := Fintype.card_congr equivProd
  _ = Fintype.card Fp * Fintype.card Fp := Fintype.card_prod _ _
  _ = p * p := congrArg₂ _ Fp.card_eq Fp.card_eq

end Fp2

end BlsBn254
