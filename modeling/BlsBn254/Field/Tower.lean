import BlsBn254.Field.Quadratic

/-!
# The tower of extensions

The values of the pairing lie in the extension `Fp12` of degree twelve of the
base field, built in three steps:

* `Fp2` adjoins a root `u` of `u² = -1`;
* `Fp6` adjoins to `Fp2` a root `v` of `v³ = 9 + u`;
* `Fp12` adjoins to `Fp6` a root `w` of `w² = v`.

So `w` is a sixth root of `9 + u`. The Frobenius power `p ^ 6` fixes `Fp6` and
takes `w` to `-w`: it is the conjugation (`Fp12.conj`).
-/

namespace BlsBn254

/-! ## Degree six -/

/-- An element `c₀ + c₁ v + c₂ v²` of the cubic extension of `Fp2`. -/
@[ext]
structure Fp6 where
  /-- The part in `Fp2`. -/
  c₀ : Fp2
  /-- The coefficient of `v`. -/
  c₁ : Fp2
  /-- The coefficient of `v²`. -/
  c₂ : Fp2
  deriving DecidableEq

namespace Fp6

instance : Zero Fp6 := ⟨⟨0, 0, 0⟩⟩

instance : One Fp6 := ⟨⟨1, 0, 0⟩⟩

instance : Add Fp6 := ⟨fun a b => ⟨a.c₀ + b.c₀, a.c₁ + b.c₁, a.c₂ + b.c₂⟩⟩

instance : Neg Fp6 := ⟨fun a => ⟨-a.c₀, -a.c₁, -a.c₂⟩⟩

instance : Sub Fp6 := ⟨fun a b => ⟨a.c₀ - b.c₀, a.c₁ - b.c₁, a.c₂ - b.c₂⟩⟩

/-- The product. -/
protected def mul (a b : Fp6) : Fp6 :=
  ⟨a.c₀ * b.c₀ + Fp2.xi * (a.c₁ * b.c₂ + a.c₂ * b.c₁),
    a.c₀ * b.c₁ + a.c₁ * b.c₀ + Fp2.xi * (a.c₂ * b.c₂),
    a.c₀ * b.c₂ + a.c₁ * b.c₁ + a.c₂ * b.c₀⟩

instance : Mul Fp6 := ⟨Fp6.mul⟩

/-- The product with `v`. -/
def mulRoot (a : Fp6) : Fp6 := ⟨Fp2.xi * a.c₂, a.c₀, a.c₁⟩

/-- The inverse, from the norm to `Fp2`; zero for zero. -/
protected def inv (a : Fp6) : Fp6 :=
  let t₀ := a.c₀ * a.c₀ - Fp2.xi * (a.c₁ * a.c₂)
  let t₁ := Fp2.xi * (a.c₂ * a.c₂) - a.c₀ * a.c₁
  let t₂ := a.c₁ * a.c₁ - a.c₀ * a.c₂
  let s := (a.c₀ * t₀ + Fp2.xi * (a.c₂ * t₁ + a.c₁ * t₂))⁻¹
  ⟨t₀ * s, t₁ * s, t₂ * s⟩

instance : Inv Fp6 := ⟨Fp6.inv⟩

end Fp6

/-! ## Degree twelve -/

/-- An element `c₀ + c₁ w` of the quadratic extension of `Fp6`. -/
@[ext]
structure Fp12 where
  /-- The part in `Fp6`. -/
  c₀ : Fp6
  /-- The coefficient of `w`. -/
  c₁ : Fp6
  deriving DecidableEq

namespace Fp12

instance : Zero Fp12 := ⟨⟨0, 0⟩⟩

instance : One Fp12 := ⟨⟨1, 0⟩⟩

/-- The product, with three products of coefficients instead of four. -/
protected def mul (a b : Fp12) : Fp12 :=
  let s := a.c₀ * b.c₀
  let t := a.c₁ * b.c₁
  ⟨s + t.mulRoot, (a.c₀ + a.c₁) * (b.c₀ + b.c₁) - s - t⟩

instance : Mul Fp12 := ⟨Fp12.mul⟩

instance : Pow Fp12 Nat := ⟨power⟩

/-- The conjugate, which changes the sign of `w`. -/
def conj (a : Fp12) : Fp12 := ⟨a.c₀, -a.c₁⟩

/-- The inverse, from the norm to `Fp6`; zero for zero. -/
protected def inv (a : Fp12) : Fp12 :=
  let s := (a.c₀ * a.c₀ - (a.c₁ * a.c₁).mulRoot)⁻¹
  ⟨a.c₀ * s, -a.c₁ * s⟩

instance : Inv Fp12 := ⟨Fp12.inv⟩

end Fp12

end BlsBn254
