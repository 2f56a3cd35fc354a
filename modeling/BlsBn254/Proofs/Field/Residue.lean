import Mathlib
import BlsBn254.Keys.Verifier

/-!
# Residues as a ring and as a field

The arithmetic of the residues is that of the integers modulo `m`: reading the
least representative modulo `m` (`Residue.toZMod`) is injective and keeps sums,
products, powers and numerals. So the laws of a commutative ring hold for the
operations that compute, and those of a field if `m` is an odd prime, with the
power `m - 2` as the inverse (`Residue.toZMod_inv`).

The instances are stated after everything that runs, so that no computation
passes through them; their operations are nevertheless the ones that run, and
`decide` evaluates closed statements about them.
-/

namespace BlsBn254

namespace Residue

variable {m : ℕ}

/-! ## Reading modulo `m` -/

/-- The class of the least representative. -/
def toZMod (a : Residue m) : ZMod m := a.val

theorem toZMod_injective : Function.Injective (toZMod : Residue m → ZMod m) := by
  intro a b h
  rw [toZMod, toZMod, ZMod.natCast_eq_natCast_iff', Nat.mod_eq_of_lt a.isLt,
    Nat.mod_eq_of_lt b.isLt] at h
  exact Residue.ext h

section Ring

variable [Modulus m]

instance : NeZero m := ⟨Modulus.pos.ne'⟩

instance : NatCast (Residue m) := ⟨ofNat⟩

instance : IntCast (Residue m) := ⟨fun n => ofNat (n % m).toNat⟩

instance : SMul ℕ (Residue m) := ⟨fun n a => n * a⟩

instance : SMul ℤ (Residue m) := ⟨fun n a => n * a⟩

theorem toZMod_natCast (n : ℕ) : toZMod (n : Residue m) = n := ZMod.natCast_mod n m

theorem toZMod_intCast (n : ℤ) : toZMod (n : Residue m) = n := by
  have hm : (m : ℤ) ≠ 0 := by exact_mod_cast NeZero.ne m
  calc toZMod (n : Residue m) = ((n % m).toNat : ZMod m) := toZMod_natCast _
    _ = ((n % m : ℤ) : ZMod m) := by
      rw [← Int.cast_natCast, Int.toNat_of_nonneg (Int.emod_nonneg n hm)]
    _ = n := ZMod.intCast_mod n m

theorem toZMod_zero : toZMod (0 : Residue m) = 0 := (toZMod_natCast 0).trans Nat.cast_zero

theorem toZMod_one : toZMod (1 : Residue m) = 1 := (toZMod_natCast 1).trans Nat.cast_one

omit [Modulus m] in
theorem toZMod_add (a b : Residue m) : toZMod (a + b) = toZMod a + toZMod b := by
  rw [toZMod, val_add, ZMod.natCast_mod, Nat.cast_add, toZMod, toZMod]

omit [Modulus m] in
theorem toZMod_mul (a b : Residue m) : toZMod (a * b) = toZMod a * toZMod b := by
  rw [toZMod, val_mul, ZMod.natCast_mod, Nat.cast_mul, toZMod, toZMod]

omit [Modulus m] in
theorem toZMod_neg (a : Residue m) : toZMod (-a) = -toZMod a := by
  rw [toZMod, val_neg, ZMod.natCast_mod, Nat.cast_sub a.isLt.le, ZMod.natCast_self, zero_sub,
    toZMod]

omit [Modulus m] in
theorem toZMod_sub (a b : Residue m) : toZMod (a - b) = toZMod a - toZMod b := by
  rw [toZMod, val_sub, ZMod.natCast_mod, Nat.cast_add, Nat.cast_sub b.isLt.le, ZMod.natCast_self,
    zero_sub, toZMod, toZMod, sub_eq_add_neg]

/-- The binary method computes the power. -/
theorem toZMod_pow (a : Residue m) (n : ℕ) : toZMod (a ^ n) = toZMod a ^ n := by
  -- What the binary method reaches at `k` is the power `k`.
  refine binaryMethod_rel (R := fun k b => toZMod b = toZMod a ^ k) ?_ ?_ ?_ n
  · rw [toZMod_one, pow_zero]
  · intro k b hb
    rw [toZMod_mul, hb, two_mul, pow_add]
  · intro k b hb
    rw [toZMod_mul, hb, pow_succ]

instance : CommRing (Residue m) :=
  toZMod_injective.commRing toZMod toZMod_zero toZMod_one toZMod_add toZMod_mul toZMod_neg
    toZMod_sub
    (fun n a => by rw [nsmul_eq_mul, ← toZMod_natCast, ← toZMod_mul]; rfl)
    (fun n a => by rw [zsmul_eq_mul, ← toZMod_intCast, ← toZMod_mul]; rfl)
    toZMod_pow toZMod_natCast toZMod_intCast

/-- The residues are the integers modulo `m`. -/
def equivZMod : Residue m ≃+* ZMod m where
  toFun := toZMod
  invFun c := ⟨c.val, c.val_lt⟩
  left_inv a := Residue.ext (ZMod.val_cast_of_lt a.isLt)
  right_inv c := ZMod.natCast_zmod_val c
  map_add' := toZMod_add
  map_mul' := toZMod_mul

instance : Fintype (Residue m) := Fintype.ofEquiv (ZMod m) equivZMod.symm.toEquiv

theorem card_eq : Fintype.card (Residue m) = m :=
  (Fintype.card_congr equivZMod.toEquiv).trans (ZMod.card m)

/-- Numerals are equal if they are congruent. -/
theorem natCast_eq_natCast_iff (a b : ℕ) : (a : Residue m) = b ↔ a ≡ b [MOD m] := by
  rw [← toZMod_injective.eq_iff, toZMod_natCast, toZMod_natCast, ZMod.natCast_eq_natCast_iff]

end Ring

/-! ## The field of an odd prime -/

section Field

variable [Modulus m] [hm : Fact m.Prime] [h₂ : Fact (2 < m)]

/-- The inverse undoes the product, by Fermat's little theorem, and is zero at
    zero. -/
theorem toZMod_inv (a : Residue m) : toZMod a⁻¹ = (toZMod a)⁻¹ := by
  calc toZMod a⁻¹ = toZMod a ^ (m - 2) := toZMod_pow a _
    _ = (toZMod a)⁻¹ := by
      rcases eq_or_ne (toZMod a) 0 with ha | ha
      · -- Zero is left at zero, as the exponent is positive.
        rw [ha, inv_zero, zero_pow (Nat.sub_pos_of_lt h₂.out).ne']
      · -- Of any other class, the power `m - 1` is one.
        refine eq_inv_of_mul_eq_one_left ?_
        rw [← pow_succ, show m - 2 + 1 = m - 1 by have := h₂.out; omega]
        exact ZMod.pow_card_sub_one_eq_one ha

instance : Field (Residue m) where
  exists_pair_ne := ⟨0, 1, fun h => by
    have := congrArg toZMod h
    rw [toZMod_zero, toZMod_one] at this
    exact zero_ne_one this⟩
  mul_inv_cancel a ha := by
    have hz : toZMod a ≠ 0 := fun h => ha (toZMod_injective (h.trans toZMod_zero.symm))
    apply toZMod_injective
    rw [toZMod_mul, toZMod_inv, mul_inv_cancel₀ hz, toZMod_one]
  inv_zero := by
    apply toZMod_injective
    rw [toZMod_inv, toZMod_zero, inv_zero]
  nnqsmul := _
  nnqsmul_def := fun _ _ => rfl
  qsmul := _
  qsmul_def := fun _ _ => rfl

end Field

end Residue

end BlsBn254
