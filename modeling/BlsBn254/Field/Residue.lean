import BlsBn254.BinaryMethod
import BlsBn254.Bytes

/-!
# Residues

The residues modulo `m` are the numbers below `m`, with the arithmetic of the
integers taken modulo `m`. If `m` is prime they form a field, whose inverse is
the power `m - 2`: by Fermat's little theorem it inverts every residue but
zero, which it leaves at zero.

A residue is written in `Residue.encodedLength` bytes, as its least
representative. Reading (`Residue.decode`) takes nothing but such a
representative, so a residue has one encoding; the reduction
(`Residue.ofBytes`) takes any byte string and divides by the modulus.
-/

namespace BlsBn254

/-- A number that can be divided by. -/
class Modulus (m : Nat) : Prop where
  /-- It is not zero. -/
  pos : 0 < m

/-- A residue modulo `m`, by its least representative. -/
@[ext]
structure Residue (m : Nat) where
  /-- The least representative. -/
  val : Nat
  /-- It is below the modulus. -/
  isLt : val < m
  deriving DecidableEq

namespace Residue

variable {m : Nat}

/-- There is no residue modulo zero. -/
theorem modulus_pos (a : Residue m) : 0 < m := Nat.zero_lt_of_lt a.isLt

/-! ## Arithmetic -/

/-- The residue of a number. -/
def ofNat [Modulus m] (n : Nat) : Residue m := ⟨n % m, Nat.mod_lt n Modulus.pos⟩

instance [Modulus m] : Zero (Residue m) := ⟨ofNat 0⟩

instance [Modulus m] : One (Residue m) := ⟨ofNat 1⟩

instance : Add (Residue m) := ⟨fun a b => ⟨(a.val + b.val) % m, Nat.mod_lt _ a.modulus_pos⟩⟩

instance : Neg (Residue m) := ⟨fun a => ⟨(m - a.val) % m, Nat.mod_lt _ a.modulus_pos⟩⟩

instance : Sub (Residue m) :=
  ⟨fun a b => ⟨(a.val + (m - b.val)) % m, Nat.mod_lt _ a.modulus_pos⟩⟩

instance : Mul (Residue m) := ⟨fun a b => ⟨a.val * b.val % m, Nat.mod_lt _ a.modulus_pos⟩⟩

instance [Modulus m] : Pow (Residue m) Nat := ⟨power⟩

instance [Modulus m] : Inv (Residue m) := ⟨fun a => a ^ (m - 2)⟩

theorem val_ofNat [Modulus m] (n : Nat) : (ofNat n : Residue m).val = n % m := rfl

theorem val_zero [Modulus m] : (0 : Residue m).val = 0 := Nat.zero_mod m

theorem val_one [Modulus m] : (1 : Residue m).val = 1 % m := rfl

theorem val_add (a b : Residue m) : (a + b).val = (a.val + b.val) % m := rfl

theorem val_neg (a : Residue m) : (-a).val = (m - a.val) % m := rfl

theorem val_sub (a b : Residue m) : (a - b).val = (a.val + (m - b.val)) % m := rfl

theorem val_mul (a b : Residue m) : (a * b).val = a.val * b.val % m := rfl

/-! ## Bytes -/

/-- The length of an encoded residue. -/
def encodedLength : Nat := 32

/-- The encoding of a residue, most significant byte first. -/
def encode (a : Residue m) : Bytes := Bytes.ofNat encodedLength a.val

/-- The residue a byte string encodes, if the number it writes is below the
    modulus. -/
def decode (b : Bytes) : Option (Residue m) :=
  if h : b.toNat < m then some ⟨b.toNat, h⟩ else none

/-- The residue of the number a byte string writes. -/
def ofBytes [Modulus m] (b : Bytes) : Residue m := ofNat b.toNat

@[simp]
theorem length_encode (a : Residue m) : a.encode.length = encodedLength :=
  Bytes.length_ofNat _ _

end Residue

end BlsBn254
