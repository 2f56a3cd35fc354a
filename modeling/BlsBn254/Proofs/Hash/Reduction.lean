import BlsBn254.Hash.CurvePoint
import BlsBn254.Proofs.Field.Residue
import BlsBn254.Proofs.Hash.Expansion

/-!
# The field elements of RFC 9380

The standard (section 5.2) takes the bytes of an expansion forty-eight at a time, and
divides the integer that they write by the modulus. Here every such chunk is reduced in two
halves, of which the first counts `2 ^ 192` times (`FieldHash.twoPow192_eq`). The result is
the same for all chunks (`FieldHash.reduce_eq`), also where the sum of the halves is many
times the modulus, as the arithmetic of residues is that of integers modulo `p`.

The chunks of an expansion follow each other without a gap, and the last of them ends where
the expansion does (`FieldHash.flatMap_chunk`). So every element that a message hashes to is
the one that the standard says (`FieldHash.elements_eq_standard`).
-/

namespace BlsBn254

/-- The integer that a byte string writes: its bytes are the digits to the base 256, the most
    significant one first. -/
def Bytes.toInteger (b : Bytes) : ℕ := Nat.ofDigits 256 (b.reverse.map UInt8.toNat)

/-- Reading byte by byte gives the integer. -/
theorem Bytes.toNat_eq_toInteger (b : Bytes) : toNat b = toInteger b := by
  induction b with
  | nil => rfl
  | cons c b ih =>
    rw [toNat_cons, toInteger, List.reverse_cons, List.map_append, Nat.ofDigits_append,
      ← toInteger, ← ih, List.length_map, List.length_reverse, List.map_singleton,
      Nat.ofDigits_singleton]
    ring

namespace FieldHash

/-! ## The reduction of a chunk -/

/-- The weight of the first half is the number of values that the second half can have. -/
theorem twoPow192_eq : twoPow192 = ((2 ^ 192 : ℕ) : Fp) := congrArg Residue.ofNat (by norm_num)

/-- A chunk is reduced to the residue of the number that it writes. -/
theorem reduce_eq {c : Bytes} (hc : c.length = chunkLength) : reduce c = Residue.ofBytes c := by
  have hweight : 256 ^ (c.drop (chunkLength / 2)).length = 2 ^ 192 := by
    rw [List.length_drop, hc]
    decide
  calc reduce c = (Bytes.toNat (c.take (chunkLength / 2)) *
              256 ^ (c.drop (chunkLength / 2)).length +
            Bytes.toNat (c.drop (chunkLength / 2)) : ℕ) := by
        rw [Nat.cast_add, Nat.cast_mul, hweight, ← twoPow192_eq]
        rfl
    _ = (Bytes.toNat c : Fp) := by rw [← Bytes.toNat_append, List.take_append_drop]

theorem val_reduce {c : Bytes} (hc : c.length = chunkLength) :
    (reduce c).val = Bytes.toInteger c % p := by
  rw [reduce_eq hc, Residue.ofBytes, Residue.val_ofNat, Bytes.toNat_eq_toInteger]

/-! ## The chunks of an expansion -/

/-- The first chunks make up the bytes that they are taken from. -/
theorem flatMap_chunk (bytes : Bytes) (n : ℕ) :
    (List.range n).flatMap (chunk bytes) = bytes.take (chunkLength * n) := by
  induction n with
  | zero => rfl
  | succ n ih =>
    rw [List.range_succ, List.flatMap_append, ih, List.flatMap_singleton, Nat.mul_succ,
      List.take_add, chunk]

/-- Every chunk of bytes that make up `n` of them has its full length. -/
theorem length_chunk {bytes : Bytes} {n i : ℕ} (hbytes : bytes.length = chunkLength * n)
    (hi : i < n) : (chunk bytes i).length = chunkLength := by
  have hend : chunkLength * i + chunkLength ≤ chunkLength * n := Nat.mul_le_mul_left _ hi
  rw [chunk, List.length_take, List.length_drop, hbytes]
  omega

theorem getElem_elements (message tag : Bytes) {n i : ℕ} (hi : i < n) :
    (elements message tag n)[i] =
      reduce (chunk (Expander.expand message tag (chunkLength * n)) i) := by
  rw [elements, Vector.getElem_ofFn]

/-- Up to the limit of the expander, a message is expanded to as many chunks as elements are
    wanted, which make up the expansion of the standard, and every element is the integer of
    the chunk at its place modulo `p`. That holds of every chunk of forty-eight bytes. -/
theorem elements_eq_standard (message tag : Bytes) :
    (∀ n, 48 * n ≤ 8160 →
        let bytes := Expander.Standard.expansion message tag (48 * n)
        Expander.expandMessage message tag (48 * n) = .ok bytes ∧ bytes.length = 48 * n ∧
          (List.range n).flatMap (chunk bytes) = bytes ∧
          ∀ i (hi : i < n), (elements message tag n)[i].val =
            Bytes.toInteger ((bytes.drop (48 * i)).take 48) % p) ∧
      ∀ c : Bytes, c.length = 48 → (reduce c).val = Bytes.toInteger c % p := by
  refine ⟨fun n hn => ?_, fun c hc => val_reduce hc⟩
  rw [← Expander.expand_eq_standard]
  have hlength := Expander.length_expand message tag (48 * n)
  refine ⟨(Expander.expandMessage_eq_ok_iff message tag (48 * n)).2 ⟨hn, rfl⟩, hlength,
    (flatMap_chunk _ n).trans (List.take_of_length_le hlength.le), fun i hi => ?_⟩
  rw [getElem_elements message tag hi]
  exact val_reduce (length_chunk hlength hi)

/-- The last of as many elements as there can be, and the largest chunk. -/
theorem elements_longest :
    48 * 170 ≤ 8160 ∧ 169 < 170 ∧
      (elements [7] (Bytes.zeros 256) 170)[169].val =
        Bytes.toInteger (((Expander.Standard.expansion [7] (Bytes.zeros 256) (48 * 170)).drop
          (48 * 169)).take 48) % p ∧
      (List.replicate 48 (255 : UInt8)).length = 48 ∧
      (reduce (List.replicate 48 255)).val = (256 ^ 48 - 1) % p := by
  have hlargest : Bytes.toInteger (List.replicate 48 255) = 256 ^ 48 - 1 := by decide +kernel
  obtain ⟨helements, hreduce⟩ := elements_eq_standard [7] (Bytes.zeros 256)
  have hmany : 48 * 170 ≤ 8160 := le_rfl
  obtain ⟨-, -, -, hlast⟩ := helements 170 hmany
  have hindex : 169 < 170 := by decide
  exact ⟨hmany, hindex, hlast 169 hindex, List.length_replicate,
    (hreduce _ List.length_replicate).trans (congrArg (· % p) hlargest)⟩

end FieldHash

end BlsBn254
