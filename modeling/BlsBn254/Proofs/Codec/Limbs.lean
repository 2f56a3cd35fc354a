import BlsBn254.Proofs.Codec.Order
import BlsBn254.Proofs.Hash.Reduction

/-!
# Residues in limbs

On a machine a residue is kept in *limbs*, its digits to the base `2 ^ 64`, of which the least
significant one comes first (`Limbs.toNat`, `Limbs.ofNat`), while the bytes of its encoding
begin with the most significant one. So an encoding is taken apart from its end, eight bytes
for each limb, which themselves stay in their order (`Limbs.ofBytes`, `Limbs.toBytes`). What
the limbs write is then what the bytes do (`Limbs.toNat_ofBytes`, `Limbs.toBytes_ofNat`), so
that residues are read and written limb by limb as they are byte by byte
(`Residue.decodeLimbs_eq`, `Residue.encodeLimbs_eq`).

Either way the encoding is a bijection from the residues to the strings of thirty-two bytes
that write a number below the modulus, and keeps the order (`Residue.OrderedCodec`), for both
fields (`Residue.orderedCodec_fields`).
-/

namespace BlsBn254

/-! ## Limbs -/

/-- A number in limbs of sixty-four bits, the least significant one first. -/
abbrev Limbs := List UInt64

namespace Limbs

/-- The number that limbs write. -/
def toNat (ws : Limbs) : ℕ := Nat.ofDigits (2 ^ 64) (ws.map UInt64.toNat)

/-- The first limbs of a number. -/
def ofNat : (count n : ℕ) → Limbs
  | 0, _ => []
  | count + 1, n => UInt64.ofNat n :: ofNat count (n >>> 64)

/-- The limbs that a byte string writes, the first of them in its last eight bytes. -/
def ofBytes : (count : ℕ) → (b : Bytes) → Limbs
  | 0, _ => []
  | count + 1, b => UInt64.ofNat (Bytes.toNat (b.rtake 8)) :: ofBytes count (b.rdrop 8)

/-- The bytes of limbs, eight for each, those of the first limb at the end. -/
def toBytes : Limbs → Bytes
  | [] => []
  | w :: ws => toBytes ws ++ Bytes.ofNat 8 w.toNat

theorem toNat_cons (w : UInt64) (ws : Limbs) : toNat (w :: ws) = w.toNat + 2 ^ 64 * ws.toNat :=
  Nat.ofDigits_cons

/-! ### Reading -/

/-- The limbs of a byte string write the number that the bytes write. -/
theorem toNat_ofBytes {count : ℕ} {b : Bytes} (hb : b.length = 8 * count) :
    (ofBytes count b).toNat = b.toNat := by
  induction count generalizing b with
  | zero =>
    obtain rfl := List.length_eq_zero_iff.1 hb
    rfl
  | succ count ih =>
    have htake : (b.rtake 8).length = 8 := by
      rw [List.rtake, List.length_drop]
      omega
    have hdrop : (b.rdrop 8).length = 8 * count := by
      rw [List.rdrop, List.length_take]
      omega
    have hlt : Bytes.toNat (b.rtake 8) < 2 ^ 64 := by
      have h := Bytes.toNat_lt (b.rtake 8)
      rwa [htake] at h
    -- Eight bytes weigh as much as one limb.
    calc (ofBytes (count + 1) b).toNat
        = Bytes.toNat (b.rtake 8) + 2 ^ 64 * Bytes.toNat (b.rdrop 8) := by
          rw [ofBytes, toNat_cons, UInt64.toNat_ofNat_of_lt' hlt, ih hdrop]
      _ = Bytes.toNat (b.rdrop 8 ++ b.rtake 8) := by
          rw [Bytes.toNat_append, htake, add_comm, mul_comm]
          rfl
      _ = b.toNat := by rw [List.rdrop, List.rtake, List.take_append_drop]

/-! ### Writing -/

theorem length_ofNat (count n : ℕ) : (ofNat count n).length = count := by
  induction count generalizing n with
  | zero => rfl
  | succ count ih => rw [ofNat, List.length_cons, ih]

/-- The first limbs of a number write the part of it that fits. -/
theorem toNat_ofNat (count n : ℕ) : (ofNat count n).toNat = n % (2 ^ 64) ^ count := by
  induction count generalizing n with
  | zero =>
    rw [pow_zero, Nat.mod_one]
    rfl
  | succ count ih =>
    rw [ofNat, toNat_cons, ih, UInt64.toNat_ofNat', Nat.shiftRight_eq_div_pow,
      pow_succ' (2 ^ 64) count, Nat.mod_mul]

theorem length_toBytes (ws : Limbs) : ws.toBytes.length = 8 * ws.length := by
  induction ws with
  | nil => rfl
  | cons w ws ih =>
    rw [toBytes, List.length_append, ih, Bytes.length_ofNat, List.length_cons, Nat.mul_succ]

/-- The bytes of limbs write the number that the limbs write. -/
theorem toNat_toBytes (ws : Limbs) : ws.toBytes.toNat = ws.toNat := by
  induction ws with
  | nil => rfl
  | cons w ws ih =>
    have hw : w.toNat < 256 ^ 8 := w.toNat_lt
    rw [toBytes, Bytes.toNat_append, ih, Bytes.toNat_ofNat hw, Bytes.length_ofNat, toNat_cons,
      add_comm, mul_comm]
    rfl

/-- A number is written limb by limb as it is byte by byte. -/
theorem toBytes_ofNat (count n : ℕ) : (ofNat count n).toBytes = Bytes.ofNat (8 * count) n := by
  apply Bytes.toNat_injective
  · rw [length_toBytes, length_ofNat, Bytes.length_ofNat]
  · rw [toNat_toBytes, toNat_ofNat, Bytes.toNat_ofNat_mod, pow_mul]
    rfl

end Limbs

/-! ## Residues -/

namespace Residue

variable {m : ℕ}

/-- The residue that thirty-two bytes encode, read limb by limb. -/
def decodeLimbs (b : Bytes) : Option (Residue m) :=
  if h : (Limbs.ofBytes 4 b).toNat < m then some ⟨_, h⟩ else none

/-- The encoding of a residue, written limb by limb. -/
def encodeLimbs (a : Residue m) : Bytes := (Limbs.ofNat 4 a.val).toBytes

theorem decodeLimbs_eq {b : Bytes} (hb : b.length = encodedLength) :
    (decodeLimbs b : Option (Residue m)) = decode b := by
  have hnat : (Limbs.ofBytes 4 b).toNat = b.toNat := Limbs.toNat_ofBytes hb
  simp only [decodeLimbs, decode, hnat]

theorem encodeLimbs_eq (a : Residue m) : a.encodeLimbs = a.encode := Limbs.toBytes_ofNat 4 a.val

/-- Reading and writing are inverse to each other between the residues and the strings of
    thirty-two bytes that write a number below the modulus, and keep the order. -/
structure OrderedCodec (read : Bytes → Option (Residue m)) (write : Residue m → Bytes) : Prop where
  /-- Thirty-two bytes are written. -/
  length_write : ∀ a, (write a).length = 32
  /-- Thirty-two bytes are read precisely if their integer is below the modulus. -/
  isSome_read_iff : ∀ b : Bytes, b.length = 32 → ((read b).isSome ↔ b.toInteger < m)
  /-- What is read is the residue of that integer, and is written as the bytes read. -/
  of_read : ∀ (b : Bytes) (a : Residue m), b.length = 32 → read b = some a →
    a.val = b.toInteger ∧ write a = b
  /-- What is written is read back. -/
  read_write : ∀ a, read (write a) = some a
  /-- Bytes that are written have, the first one that differs deciding, the order of the
      residues. -/
  compare_write : ∀ a b, compare (write a) (write b) = compare a.val b.val

/-- Only what is read of thirty-two bytes matters. -/
theorem OrderedCodec.congr {read read' : Bytes → Option (Residue m)}
    {write write' : Residue m → Bytes} (h : OrderedCodec read write)
    (hread : ∀ b : Bytes, b.length = 32 → read' b = read b) (hwrite : ∀ a, write' a = write a) :
    OrderedCodec read' write' where
  length_write a := by rw [hwrite, h.length_write]
  isSome_read_iff b hb := by rw [hread b hb, h.isSome_read_iff b hb]
  of_read b a hb hba := by
    rw [hread b hb] at hba
    rw [hwrite]
    exact h.of_read b a hb hba
  read_write a := by rw [hwrite, hread _ (h.length_write a), h.read_write]
  compare_write a b := by rw [hwrite, hwrite, h.compare_write]

section Codec

variable [Fact (m ≤ 256 ^ encodedLength)]

/-- Residues are read and written in order, byte by byte -/
theorem orderedCodec : OrderedCodec (m := m) decode encode where
  length_write := length_encode
  isSome_read_iff b _ := by
    rw [decode, ← Bytes.toNat_eq_toInteger]
    split_ifs with h
    · exact iff_of_true rfl h
    · simp [h]
  of_read b a hb hba := by
    obtain rfl := (decode_eq_some_iff hb).1 hba
    rw [← Bytes.toNat_eq_toInteger, toNat_encode]
    exact ⟨rfl, rfl⟩
  read_write a := (decode_eq_some_iff (length_encode a)).2 rfl
  compare_write := compare_encode

/-- and limb by limb. -/
theorem orderedCodec_limbs : OrderedCodec (m := m) decodeLimbs encodeLimbs :=
  orderedCodec.congr (fun _ hb => decodeLimbs_eq hb) encodeLimbs_eq

end Codec

/-- In both fields, reading and writing are inverse to each other between the elements and
    the strings of thirty-two bytes whose integer is below the modulus, and strings have the
    order of the elements that they encode. That is so byte by byte and limb by limb. -/
theorem orderedCodec_fields :
    (OrderedCodec (m := p) decode encode ∧ OrderedCodec (m := p) decodeLimbs encodeLimbs) ∧
      OrderedCodec (m := r) decode encode ∧ OrderedCodec (m := r) decodeLimbs encodeLimbs :=
  ⟨⟨orderedCodec, orderedCodec_limbs⟩, orderedCodec, orderedCodec_limbs⟩

/-- The number before the modulus is read as minus one, and the modulus is not read, in
    either way and in either field. -/
theorem orderedCodec_boundary :
    let b := Bytes.ofNat 32 (p - 1)
    let c := Bytes.ofNat 32 p
    let d := Bytes.ofNat 32 (r - 1)
    let e := Bytes.ofNat 32 r
    (b.length = 32 ∧ decode b = some (-1 : Fp) ∧ (-1 : Fp).val = b.toInteger ∧
        encode (-1 : Fp) = b) ∧
      (c.length = 32 ∧ ¬(decodeLimbs c : Option Fp).isSome) ∧
      (d.length = 32 ∧ decodeLimbs d = some (-1 : Scalar) ∧ (-1 : Scalar).val = d.toInteger ∧
        encodeLimbs (-1 : Scalar) = d) ∧
      e.length = 32 ∧ ¬(decode e : Option Scalar).isSome := by
  intro b c d e
  obtain ⟨⟨hp, hpLimbs⟩, hr, hrLimbs⟩ := orderedCodec_fields
  have hb : b.length = 32 := Bytes.length_ofNat _ _
  have hc : c.length = 32 := Bytes.length_ofNat _ _
  have hd : d.length = 32 := Bytes.length_ofNat _ _
  have he : e.length = 32 := Bytes.length_ofNat _ _
  have hbRead : decode b = some (-1 : Fp) := by decide +kernel
  have hdRead : decodeLimbs d = some (-1 : Scalar) := by decide +kernel
  have hcInteger : ¬c.toInteger < p := by decide +kernel
  have heInteger : ¬e.toInteger < r := by decide +kernel
  exact ⟨⟨hb, hbRead, hp.of_read b _ hb hbRead⟩,
    ⟨hc, mt (hpLimbs.isSome_read_iff c hc).1 hcInteger⟩,
    ⟨hd, hdRead, hrLimbs.of_read d _ hd hdRead⟩, he, mt (hr.isSome_read_iff e he).1 heInteger⟩

end Residue

end BlsBn254
