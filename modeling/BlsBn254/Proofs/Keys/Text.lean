import Mathlib
import BlsBn254.Keys.Log

/-!
# What the texts of the log tell

The fields of an event are texts. An encoding is written as the digits of its bytes to the
base sixteen (`Bytes.toHex_eq_hexadecimal`). A cause is written by its name, which is the
first word, and by its numbers, each of which ends where a character follows that is no
digit. So causes that are written alike are the same (`Error.symbol_injective`).
-/

namespace BlsBn254

/-! ## Encodings -/

namespace Bytes

/-- The digits of the bytes to the base sixteen, two of each and the high one first. -/
def hexadecimal (b : Bytes) : String :=
  String.ofList (b.flatMap fun c => [Nat.digitChar (c.toNat / 16), Nat.digitChar (c.toNat % 16)])

theorem hexDigit_ofNat : ∀ n : Fin 16, hexDigit (UInt8.ofNat n) = Nat.digitChar n := by decide

theorem hexDigit_eq_digitChar {n : UInt8} (hn : n.toNat < 16) :
    hexDigit n = Nat.digitChar n.toNat := by
  rw [← hexDigit_ofNat ⟨n.toNat, hn⟩, UInt8.ofNat_toNat]

/-- The text of a byte string is made of its digits to the base sixteen. -/
theorem toHex_eq_hexadecimal (b : Bytes) : toHex b = hexadecimal b := by
  have hbyte : ∀ c : UInt8, [hexDigit (c / 16), hexDigit (c % 16)] =
      [Nat.digitChar (c.toNat / 16), Nat.digitChar (c.toNat % 16)] := by
    intro c
    have hhigh : (c / 16).toNat = c.toNat / 16 := UInt8.toNat_div c 16
    have hlow : (c % 16).toNat = c.toNat % 16 := UInt8.toNat_mod c 16
    have hc : c.toNat < 256 := c.toNat_lt
    rw [hexDigit_eq_digitChar (by omega), hexDigit_eq_digitChar (by omega), hhigh, hlow]
  rw [toHex, hexadecimal, funext hbyte]

end Bytes

/-! ## Words and numbers -/

/-- A word ends where a text follows that does not begin with one of its characters. -/
theorem takeWhile_toList_append {isPart : Char → Bool} {word separator : String} {c : Char}
    {cs : List Char} (hword : ∀ d ∈ word.toList, isPart d) (hseparator : separator.toList = c :: cs)
    (hc : ¬isPart c) (s : String) :
    (word ++ (separator ++ s)).toList.takeWhile isPart = word.toList := by
  rw [String.toList_append, String.toList_append, hseparator, List.cons_append,
    List.takeWhile_append_of_pos hword, List.takeWhile_cons_of_neg hc, List.append_nil]

theorem isDigit_of_mem_toString {n : ℕ} {c : Char} (hc : c ∈ (toString n).toList) : c.isDigit := by
  rw [Nat.toString_eq_repr, Nat.toList_repr] at hc
  exact Nat.isDigit_of_mem_toDigits (by decide) le_rfl hc

theorem toString_injective : Function.Injective (toString : ℕ → String) :=
  fun _ _ h => Nat.repr_injective h

/-- Numbers are the same if they are written alike up to a text that does not begin with a
    digit, and then the same follows that text. -/
theorem toString_append_inj {m n : ℕ} {separator s t : String} {c : Char} {cs : List Char}
    (hseparator : separator.toList = c :: cs) (hc : ¬c.isDigit)
    (h : toString m ++ (separator ++ s) = toString n ++ (separator ++ t)) : m = n ∧ s = t := by
  have hnumber : (toString m).toList = (toString n).toList := by
    rw [← takeWhile_toList_append (fun _ => isDigit_of_mem_toString) hseparator hc s, h,
      takeWhile_toList_append (fun _ => isDigit_of_mem_toString) hseparator hc t]
  obtain rfl := toString_injective (String.toList_inj.1 hnumber)
  rw [String.append_right_inj, String.append_right_inj] at h
  exact ⟨rfl, h⟩

/-! ## Causes -/

namespace Error

/-- A wrong length is written by its name, the right length and the wrong one. -/
theorem symbol_invalidLength (m n : ℕ) : symbol (invalidLength m n) =
    "InvalidLength" ++ (" \x7b expected: " ++
      (toString m ++ (", actual: " ++ (toString n ++ " \x7d")))) := by
  have hname : "InvalidLength \x7b expected: " = "InvalidLength" ++ " \x7b expected: " := by decide
  simp only [← String.append_assoc, ← hname]
  rfl

/-- Too long an expansion is written by its name, its length and the limit. -/
theorem symbol_expansionTooLong (m n : ℕ) : symbol (expansionTooLong m n) =
    "ExpansionTooLong" ++ ("(" ++ (toString m ++ (", " ++ (toString n ++ ")")))) := by
  have hname : "ExpansionTooLong(" = "ExpansionTooLong" ++ "(" := by decide
  simp only [← String.append_assoc, ← hname]
  rfl

/-- The first word of what is written of a cause is its name. -/
theorem takeWhile_isAlpha_symbol (e : Error) :
    e.symbol.toList.takeWhile Char.isAlpha = e.name.toList := by
  cases e with
  | invalidLength m n =>
    rw [symbol_invalidLength]
    exact takeWhile_toList_append (by simp) rfl (by decide) _
  | expansionTooLong m n =>
    rw [symbol_expansionTooLong]
    exact takeWhile_toList_append (by simp) rfl (by decide) _
  | nonCanonical | notOnCurve | notInSubgroup | invalidSignature | invalidPublicKey => decide

/-- Causes that are written alike are the same. -/
theorem symbol_injective : Function.Injective symbol := by
  intro e e' h
  -- They have the same name, so it is left to compare their numbers.
  have hname : e.name = e'.name := by
    rw [← String.toList_inj, ← takeWhile_isAlpha_symbol, h, takeWhile_isAlpha_symbol]
  cases e with
  | invalidLength m n =>
    cases e' with
    | invalidLength m' n' =>
      simp only [symbol_invalidLength, String.append_right_inj] at h
      obtain ⟨rfl, hactual⟩ := toString_append_inj rfl (by decide) h
      rw [toString_injective ((String.append_left_inj _).1 hactual)]
    | _ => simp [name] at hname
  | expansionTooLong m n =>
    cases e' with
    | expansionTooLong m' n' =>
      simp only [symbol_expansionTooLong, String.append_right_inj] at h
      obtain ⟨rfl, hlimit⟩ := toString_append_inj rfl (by decide) h
      rw [toString_injective ((String.append_left_inj _).1 hlimit)]
    | _ => simp [name] at hname
  | nonCanonical | notOnCurve | notInSubgroup | invalidSignature | invalidPublicKey =>
    cases e' with
    | _ => simp [name] at hname ⊢

end Error

end BlsBn254
