import BlsBn254.Proofs.Codec.Canonical

/-!
# The order of encodings

Byte strings are compared byte by byte, the first one that differs counting the most. For
strings of one length that is the order of the numbers that they write
(`Bytes.compare_eq_compare_toNat`), as the most significant byte comes first. So residues
have the order of their encodings (`Residue.compare_encode`).
-/

namespace BlsBn254

/-- A greater digit outweighs the digits after it. -/
theorem mul_add_lt_mul_add {a w : ℕ} (ha : a < w) {m n : ℕ} (h : m < n) (b : ℕ) :
    m * w + a < n * w + b := calc
  m * w + a < m * w + w := Nat.add_lt_add_left ha _
  _ = (m + 1) * w := by ring
  _ ≤ n * w := Nat.mul_le_mul_right w h
  _ ≤ n * w + b := Nat.le_add_right _ _

/-- The digit before the others decides, unless it is the same. -/
theorem compare_mul_add {a b w : ℕ} (ha : a < w) (hb : b < w) (m n : ℕ) :
    compare (m * w + a) (n * w + b) = (compare m n).then (compare a b) := by
  rcases lt_trichotomy m n with h | rfl | h
  · rw [Nat.compare_eq_lt.2 h, Nat.compare_eq_lt.2 (mul_add_lt_mul_add ha h b)]
    rfl
  · rw [Nat.compare_eq_eq.2 rfl, ← cmp_eq_compare, ← cmp_eq_compare]
    exact (add_right_strictMono (a := m * w)).cmp_map_eq a b
  · rw [Nat.compare_eq_gt.2 h, Nat.compare_eq_gt.2 (mul_add_lt_mul_add hb h a)]
    rfl

namespace Bytes

theorem compare_byte (c d : UInt8) : compare c d = compare c.toNat d.toNat :=
  if_congr UInt8.lt_iff_toNat_lt rfl (if_congr UInt8.toNat_inj.symm rfl rfl)

/-- Strings of one length have the order of the numbers that they write. -/
theorem compare_eq_compare_toNat {a b : Bytes} (h : a.length = b.length) :
    compare a b = compare (toNat a) (toNat b) := by
  induction a generalizing b with
  | nil =>
    obtain rfl := List.length_eq_zero_iff.1 h.symm
    rfl
  | cons c a ih =>
    obtain _ | ⟨d, b⟩ := b
    · cases h
    have hlen : a.length = b.length := Nat.succ.inj h
    rw [List.compare_cons_cons, toNat_cons, toNat_cons, ← hlen,
      compare_mul_add (toNat_lt a) (hlen ▸ toNat_lt b), compare_byte, ih hlen]

end Bytes

/-- Residues have the order of their encodings. -/
theorem Residue.compare_encode {m : ℕ} [Fact (m ≤ 256 ^ encodedLength)] (a b : Residue m) :
    compare a.encode b.encode = compare a.val b.val := by
  rw [Bytes.compare_eq_compare_toNat ((length_encode a).trans (length_encode b).symm),
    toNat_encode, toNat_encode]

end BlsBn254
