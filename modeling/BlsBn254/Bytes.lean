/-!
# Byte strings

A byte string is a list of bytes. It is read as a number with the most
significant byte first (`Bytes.toNat`), and a number is written in a fixed
count of bytes in the same order (`Bytes.ofNat`). On strings of one length the
two are inverse to each other, and every written number has the length asked
for (`Bytes.length_ofNat`), whatever its size: leading digits that do not fit
are dropped.

As text, every byte is two lower-case hexadecimal digits.
-/

namespace BlsBn254

/-- A byte string. -/
abbrev Bytes := List UInt8

namespace Bytes

/-! ## Numbers -/

/-- The number a byte string writes, most significant byte first. -/
def toNat (b : Bytes) : Nat := b.foldl (fun n c => 256 * n + c.toNat) 0

/-- The last `len` bytes of `n`, most significant byte first. -/
def ofNat : (len : Nat) → (n : Nat) → Bytes
  | 0, _ => []
  | len + 1, n => UInt8.ofNat (n >>> (8 * len)) :: ofNat len n

@[simp]
theorem length_ofNat (len n : Nat) : (ofNat len n).length = len := by
  induction len with
  | zero => rfl
  | succ len ih => simp [ofNat, ih]

@[simp]
theorem toNat_nil : toNat [] = 0 := rfl

/-! ## Combinations -/

/-- The bytewise exclusive or of two byte strings, as long as the shorter one. -/
def xor (a b : Bytes) : Bytes := List.zipWith (· ^^^ ·) a b

/-- Whether every byte is zero. -/
def isZero (b : Bytes) : Bool := b.all (· == 0)

/-- The `n` zero bytes. -/
def zeros (n : Nat) : Bytes := List.replicate n 0

/-! ## Text -/

/-- The bytes of a text in UTF-8. -/
def ofString (s : String) : Bytes := s.toUTF8.data.toList

/-- The lower-case hexadecimal digit of a number below sixteen. -/
def hexDigit (n : UInt8) : Char :=
  Char.ofNat (if n < 10 then '0'.toNat + n.toNat else 'a'.toNat + (n.toNat - 10))

/-- The text of a byte string: two lower-case hexadecimal digits a byte. -/
def toHex (b : Bytes) : String :=
  String.ofList (b.flatMap fun c => [hexDigit (c / 16), hexDigit (c % 16)])

/-- The value of a hexadecimal digit, of either case. -/
def hexValue? (c : Char) : Option UInt8 :=
  if '0' ≤ c ∧ c ≤ '9' then some (UInt8.ofNat (c.toNat - '0'.toNat))
  else if 'a' ≤ c ∧ c ≤ 'f' then some (UInt8.ofNat (c.toNat - 'a'.toNat + 10))
  else if 'A' ≤ c ∧ c ≤ 'F' then some (UInt8.ofNat (c.toNat - 'A'.toNat + 10))
  else none

/-- The byte string that hexadecimal digits write, two digits a byte. -/
def ofHexDigits? : List Char → Option Bytes
  | [] => some []
  | [_] => none
  | c :: d :: rest => do
    let high ← hexValue? c
    let low ← hexValue? d
    let bytes ← ofHexDigits? rest
    return (16 * high + low) :: bytes

/-- The byte string that a hexadecimal text writes, or none if the text is not
    made of pairs of hexadecimal digits. -/
def ofHex? (s : String) : Option Bytes := ofHexDigits? s.toList

end Bytes

end BlsBn254
