import Mathlib
import BlsBn254.Bytes

/-!
# Byte strings as numbers

Reading a byte string as a number and writing a number in bytes are inverse to
each other: a string is written back in its own length (`ofNat_toNat`), and a
number that fits is read back (`toNat_ofNat`). So among the strings of one
length each stands for a number of its own (`toNat_injective`), and these are
the numbers below a power of 256 (`toNat_lt`).
-/

namespace BlsBn254.Bytes

/-- Reading on from a number `n` shifts `n` past the bytes read. -/
theorem foldl_eq (b : Bytes) (n : ℕ) :
    b.foldl (fun n c => 256 * n + c.toNat) n = n * 256 ^ b.length + toNat b := by
  induction b generalizing n with
  | nil => simp
  | cons c b ih =>
    rw [toNat, List.foldl_cons, List.foldl_cons, ih, ih (256 * 0 + c.toNat), List.length_cons]
    ring

/-- The first byte counts the most. -/
theorem toNat_cons (c : UInt8) (b : Bytes) :
    toNat (c :: b) = c.toNat * 256 ^ b.length + toNat b := by
  rw [toNat, List.foldl_cons, foldl_eq, Nat.mul_zero, Nat.zero_add]

theorem toNat_append (a b : Bytes) : toNat (a ++ b) = toNat a * 256 ^ b.length + toNat b := by
  rw [toNat, List.foldl_append, foldl_eq, ← toNat]

theorem toNat_lt (b : Bytes) : toNat b < 256 ^ b.length := by
  induction b with
  | nil => simp
  | cons c b ih =>
    have hc : c.toNat + 1 ≤ 256 := c.toNat_lt
    rw [toNat_cons, List.length_cons]
    calc c.toNat * 256 ^ b.length + toNat b
        < c.toNat * 256 ^ b.length + 256 ^ b.length := Nat.add_lt_add_left ih _
      _ = (c.toNat + 1) * 256 ^ b.length := by ring
      _ ≤ 256 * 256 ^ b.length := Nat.mul_le_mul_right _ hc
      _ = 256 ^ (b.length + 1) := by ring

theorem toNat_zeros (n : ℕ) : toNat (zeros n) = 0 := by
  induction n with
  | zero => rfl
  | succ n ih =>
    rw [zeros, List.replicate_succ, toNat_cons, ← zeros, ih, UInt8.toNat_zero, zero_mul]

/-- Reading what was written gives the part of the number that fits. -/
theorem toNat_ofNat_mod (len n : ℕ) : toNat (ofNat len n) = n % 256 ^ len := by
  induction len with
  | zero => simp [ofNat, Nat.mod_one]
  | succ len ih =>
    have hn : n >>> (8 * len) = n / 256 ^ len := by
      rw [Nat.shiftRight_eq_div_pow, pow_mul]
      rfl
    rw [ofNat, toNat_cons, ih, length_ofNat, UInt8.toNat_ofNat', hn, pow_succ 256 len,
      Nat.mod_mul, add_comm, mul_comm (256 ^ len)]

/-- A number that fits is read back. -/
theorem toNat_ofNat {len n : ℕ} (h : n < 256 ^ len) : toNat (ofNat len n) = n := by
  rw [toNat_ofNat_mod, Nat.mod_eq_of_lt h]

/-- Strings of one length that stand for one number are equal. -/
theorem toNat_injective {a b : Bytes} (hl : a.length = b.length) (h : toNat a = toNat b) :
    a = b := by
  induction a generalizing b with
  | nil => exact (List.length_eq_zero_iff.1 hl.symm).symm
  | cons c a ih =>
    obtain _ | ⟨d, b⟩ := b
    · simp at hl
    have hl' : a.length = b.length := by simpa using hl
    rw [toNat_cons, toNat_cons, hl'] at h
    have ha := hl' ▸ toNat_lt a
    have hb := toNat_lt b
    -- the quotient by the weight of the first byte is that byte
    have hcd : c.toNat = d.toNat := by
      have := congrArg (· / 256 ^ b.length) h
      have hpos : 0 < 256 ^ b.length := by positivity
      simpa [Nat.add_div_of_dvd_right, Nat.mul_div_cancel _ hpos, Nat.div_eq_of_lt ha,
        Nat.div_eq_of_lt hb] using this
    rw [UInt8.toNat_inj.1 hcd, ih hl' (by rw [hcd] at h; exact Nat.add_left_cancel h)]

/-- A string is written back in its own length. -/
theorem ofNat_toNat (b : Bytes) : ofNat b.length (toNat b) = b :=
  toNat_injective (length_ofNat _ _) (toNat_ofNat (toNat_lt b))

end BlsBn254.Bytes
