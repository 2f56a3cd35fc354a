import BlsBn254.Field.Base

/-!
# The quadratic extension

`Fp2` adjoins to the base field a root `u` of `u² = -1`, which has no root
there since `p` is three modulo four. Its elements are written `re + im u`, and
the inverse comes from the norm `re² + im²`, which is zero for zero alone.
-/

namespace BlsBn254

/-- An element `re + im u` of the quadratic extension. -/
@[ext]
structure Fp2 where
  /-- The part in the base field. -/
  re : Fp
  /-- The coefficient of `u`. -/
  im : Fp
  deriving DecidableEq

namespace Fp2

instance : Zero Fp2 := ⟨⟨0, 0⟩⟩

instance : One Fp2 := ⟨⟨1, 0⟩⟩

instance : Add Fp2 := ⟨fun a b => ⟨a.re + b.re, a.im + b.im⟩⟩

instance : Neg Fp2 := ⟨fun a => ⟨-a.re, -a.im⟩⟩

instance : Sub Fp2 := ⟨fun a b => ⟨a.re - b.re, a.im - b.im⟩⟩

/-- The product. -/
protected def mul (a b : Fp2) : Fp2 := ⟨a.re * b.re - a.im * b.im, a.re * b.im + a.im * b.re⟩

instance : Mul Fp2 := ⟨Fp2.mul⟩

/-- The norm to the base field, the product with the conjugate. -/
def norm (a : Fp2) : Fp := a.re * a.re + a.im * a.im

/-- The inverse, the conjugate over the norm; zero for zero. -/
protected def inv (a : Fp2) : Fp2 :=
  let s := a.norm⁻¹
  ⟨a.re * s, -a.im * s⟩

instance : Inv Fp2 := ⟨Fp2.inv⟩

/-- The base field within the extension. -/
def ofBase (a : Fp) : Fp2 := ⟨a, 0⟩

theorem re_add (a b : Fp2) : (a + b).re = a.re + b.re := rfl

theorem im_add (a b : Fp2) : (a + b).im = a.im + b.im := rfl

theorem re_mul (a b : Fp2) : (a * b).re = a.re * b.re - a.im * b.im := rfl

theorem im_mul (a b : Fp2) : (a * b).im = a.re * b.im + a.im * b.re := rfl

/-- The element `9 + u`, which is neither a square nor a cube. -/
def xi : Fp2 := ⟨.ofNat 9, 1⟩

end Fp2

end BlsBn254
