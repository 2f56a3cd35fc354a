import BlsBn254.Field.Residue

/-!
# The two prime fields

The curve lives over the *base field* `Fp` of order `p`, and its points form a
group of prime order `r`, so that they are multiplied by elements of the
*scalar field* `Scalar` of order `r`. Both orders are values of fixed
polynomials at one parameter,

    p = 36 u⁴ + 36 u³ + 24 u² + 6 u + 1,    r = 36 u⁴ + 36 u³ + 18 u² + 6 u + 1.

As `p` is three modulo four, a square root needs a single power: of the power
`(p + 1) / 4` of `x` the square is `x` or `-x`, and it is `x` precisely if `x`
is a square (`Fp.sqrt`).
-/

namespace BlsBn254

/-- The parameter the orders of the fields derive from. -/
def parameter : Nat := 4965661367192848881

/-- The order of the base field. -/
def p : Nat := 0x30644e72e131a029b85045b68181585d97816a916871ca8d3c208c16d87cfd47

/-- The order of the scalar field. -/
def r : Nat := 0x30644e72e131a029b85045b68181585d2833e84879b9709143e1f593f0000001

instance : Modulus p := ⟨by decide⟩

instance : Modulus r := ⟨by decide⟩

/-- The base field. -/
abbrev Fp := Residue p

/-- The scalar field. -/
abbrev Scalar := Residue r

namespace Fp

/-- A square root of `x` if there is one, and else of `-x`; with whether there
    is one. -/
def sqrt (x : Fp) : Fp × Bool :=
  let root := x ^ ((p + 1) / 4)
  (root, root * root = x)

end Fp

namespace Scalar

/-- The scalar that undoes the multiplication by `s`; zero has none. -/
def inverse (s : Scalar) : Option Scalar := if s = 0 then none else some s⁻¹

end Scalar

end BlsBn254
