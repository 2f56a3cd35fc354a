import BlsBn254.Bytes.Numbers
import BlsBn254.Hash.Expander

/-!
# The expansion of RFC 9380

The blocks of an expansion are computed one from the other, each from the one that was
computed last. The standard (sections 5.3.1 and 5.3.3) numbers them and says of every block
what it is the digest of (`Standard.block`); the expansion is what the blocks from the first
to the last needed begin with (`Standard.expansion`). The two are the same
(`expandMessage_eq_standard`), as the block that is carried along is the one with the number
reached (`laterBlocks_eq`).

The standard writes three numbers in bytes: the length of the expansion in two, the length
of the tag and the number of a block in one each. No number is too large for its bytes: the
length is at most 255 digests, a longer tag is replaced by a digest, and the blocks are as
many as the digests.
-/

namespace BlsBn254

/-! ## Numbers in bytes -/

theorem Bytes.ofNat_one (n : ℕ) : ofNat 1 n = [UInt8.ofNat n] := rfl

theorem Bytes.ofNat_two (n : ℕ) : ofNat 2 n = [UInt8.ofNat (n / 256), UInt8.ofNat n] := by
  rw [ofNat, ofNat_one, Nat.shiftRight_eq_div_pow]

namespace Expander

/-! ## The blocks by their numbers -/

namespace Standard

/-- What stands in front of an oversize tag to be hashed: `H2C-OVERSIZE-DST-`. -/
def oversizePrefix : Bytes := [72, 50, 67, 45, 79, 86, 69, 82, 83, 73, 90, 69, 45, 68, 83, 84, 45]

/-- The tag, or its digest if it has more than 255 bytes, and its length in one byte. -/
def tagPrime (tag : Bytes) : Bytes :=
  let short := if 255 < tag.length then Sha256.digest (oversizePrefix ++ tag) else tag
  short ++ [UInt8.ofNat short.length]

/-- The block zero, which all others are made of. -/
def seed (message tag : Bytes) (len : ℕ) : Bytes :=
  Sha256.digest (List.replicate 64 0 ++ message ++ [UInt8.ofNat (len / 256), UInt8.ofNat len] ++
    [0] ++ tagPrime tag)

/-- The block with a given number. -/
def block (message tag : Bytes) (len : ℕ) : ℕ → Bytes
  | 0 => seed message tag len
  | 1 => Sha256.digest (seed message tag len ++ [1] ++ tagPrime tag)
  | i + 2 => Sha256.digest
      (List.zipWith (· ^^^ ·) (seed message tag len) (block message tag len (i + 1)) ++
        [UInt8.ofNat (i + 2)] ++ tagPrime tag)

/-- The first `len` bytes of the blocks from the first on, as many as have that many bytes. -/
def expansion (message tag : Bytes) (len : ℕ) : Bytes :=
  ((List.range' 1 (len ⌈/⌉ 32)).flatMap (block message tag len)).take len

end Standard

/-! ## The blocks of an expansion -/

theorem oversizeLabel_eq : oversizeLabel = Standard.oversizePrefix := by decide

theorem tagSuffix_eq (tag : Bytes) : tagSuffix tag = Standard.tagPrime tag := by
  rw [tagSuffix, shortTag, oversizeLabel_eq]
  rfl

variable (message tag : Bytes) (len : ℕ)

theorem digest_seedInput :
    Sha256.digest (seedInput message tag len) = Standard.seed message tag len := by
  rw [seedInput, Bytes.ofNat_two, tagSuffix_eq, Standard.seed]
  rfl

theorem digest_blockInput_one :
    Sha256.digest (blockInput (Standard.seed message tag len) tag 1) =
      Standard.block message tag len 1 := by
  rw [blockInput, Bytes.ofNat_one, tagSuffix_eq, Standard.block]
  rfl

theorem digest_blockInput_succ (i : ℕ) :
    Sha256.digest (blockInput (Bytes.xor (Standard.seed message tag len)
        (Standard.block message tag len (i + 1))) tag (i + 2)) =
      Standard.block message tag len (i + 2) := by
  rw [blockInput, Bytes.ofNat_one, tagSuffix_eq, Standard.block, Bytes.xor]

/-- The blocks after the one with the number `i + 1` are those with the numbers after it. -/
theorem laterBlocks_eq (n i : ℕ) :
    laterBlocks (Standard.seed message tag len) tag n (i + 1)
        (Standard.block message tag len (i + 1)) =
      (List.range' (i + 2) n).map (Standard.block message tag len) := by
  induction n generalizing i with
  | zero => rfl
  | succ n ih =>
    rw [laterBlocks, digest_blockInput_succ, ih, List.range'_succ, List.map_cons]

/-- The first blocks are those with the first numbers. -/
theorem blocks_eq (n : ℕ) :
    blocks (Standard.seed message tag len) tag n =
      (List.range' 1 n).map (Standard.block message tag len) := by
  cases n with
  | zero => rfl
  | succ n =>
    rw [blocks, digest_blockInput_one, laterBlocks_eq, List.range'_succ, List.map_cons]

/-- The expansion is the one of the standard. -/
theorem expand_eq_standard : expand message tag len = Standard.expansion message tag len := by
  rw [expand, digest_seedInput, blocks_eq, Standard.expansion, List.flatMap,
    Nat.ceilDiv_eq_add_pred_div]
  rfl

theorem length_block (i : ℕ) : (Standard.block message tag len i).length = 32 := by
  match i with
  | 0 => exact Sha256.length_digest _
  | 1 => exact Sha256.length_digest _
  | i + 2 => exact Sha256.length_digest _

/-- An expansion has the length asked for. -/
theorem length_expand : (expand message tag len).length = len := by
  have hlen : ∀ n ∈ (List.range' 1 (len ⌈/⌉ 32)).map fun i =>
      (Standard.block message tag len i).length, n = 32 :=
    List.forall_mem_map.2 fun i _ => length_block message tag len i
  have henough : len ≤ 32 * (len ⌈/⌉ 32) := le_smul_ceilDiv (Nat.succ_pos 31)
  rw [expand_eq_standard, Standard.expansion, List.length_take, List.length_flatMap,
    List.sum_eq_card_nsmul _ _ hlen, List.length_map, List.length_range', smul_eq_mul, mul_comm,
    min_eq_left henough]

/-! ## Which lengths are refused -/

theorem expandMessage_eq_error_iff {e : Error} :
    expandMessage message tag len = .error e ↔ 8160 < len ∧ e = .expansionTooLong len 8160 := by
  have hmax : maxLength = 8160 := rfl
  rw [expandMessage, hmax]
  split_ifs with h
  · simp [h, eq_comm]
  · simp [h]

theorem expandMessage_eq_ok_iff {out : Bytes} :
    expandMessage message tag len = .ok out ↔ len ≤ 8160 ∧ out = expand message tag len := by
  have hmax : maxLength = 8160 := rfl
  rw [expandMessage, hmax]
  split_ifs with h
  · simp [h]
  · simp [not_lt.1 h, eq_comm]

/-- The length of a short tag can be written in a byte, -/
theorem length_shortTag_le (tag : Bytes) : (shortTag tag).length ≤ 255 := by
  rw [shortTag]
  split_ifs with h
  · rw [Sha256.length_digest]
    decide
  · exact not_lt.1 h

/-- and so can the number of a block, up to the limit. -/
theorem blockCount_le {len : ℕ} (hlen : len ≤ 8160) : len ⌈/⌉ 32 ≤ 255 :=
  (ceilDiv_le_iff_le_smul (by decide)).2 hlen

/-- An expansion to more than 8160 bytes is refused, whatever the message and the tag, and
    for no other reason. Up to that length it has the bytes that the standard defines, as
    many as asked for. Every number on the way to it is written in bytes that hold it: the
    length in two bytes, and the length of the tag and the numbers of the blocks in one. -/
theorem expandMessage_eq_standard :
    (∀ e, expandMessage message tag len = .error e ↔
        8160 < len ∧ e = .expansionTooLong len 8160) ∧
      (∀ out, expandMessage message tag len = .ok out ↔
        len ≤ 8160 ∧ out = Standard.expansion message tag len) ∧
      (Standard.expansion message tag len).length = len ∧
      Bytes.toNat (Bytes.ofNat 1 (shortTag tag).length) = (shortTag tag).length ∧
      (len ≤ 8160 → Bytes.toNat (Bytes.ofNat 2 len) = len ∧
        ∀ i, 1 ≤ i → i ≤ len ⌈/⌉ 32 → Bytes.toNat (Bytes.ofNat 1 i) = i) := by
  rw [← expand_eq_standard]
  refine ⟨fun _ => expandMessage_eq_error_iff message tag len,
    fun _ => expandMessage_eq_ok_iff message tag len, length_expand message tag len,
    Bytes.toNat_ofNat ((length_shortTag_le tag).trans_lt (by decide)), fun hlen => ⟨?_, ?_⟩⟩
  · exact Bytes.toNat_ofNat (hlen.trans_lt (by decide))
  · intro i _ hi
    exact Bytes.toNat_ofNat ((hi.trans (blockCount_le hlen)).trans_lt (by decide))

/-- The longest expansion, under the shortest tag that is replaced by its digest, takes 255
    blocks. -/
theorem expandMessage_longest :
    8160 ≤ 8160 ∧ (1 ≤ 255 ∧ 255 ≤ 8160 ⌈/⌉ 32) ∧
      expandMessage [7] (Bytes.zeros 256) 8160 =
        .ok (Standard.expansion [7] (Bytes.zeros 256) 8160) ∧
      (Standard.expansion [7] (Bytes.zeros 256) 8160).length = 8160 ∧
      Bytes.toNat (Bytes.ofNat 2 8160) = 8160 ∧ Bytes.toNat (Bytes.ofNat 1 255) = 255 := by
  have hcount : 1 ≤ 255 ∧ 255 ≤ 8160 ⌈/⌉ 32 := by decide
  obtain ⟨-, hok, hlength, -, hnumbers⟩ := expandMessage_eq_standard [7] (Bytes.zeros 256) 8160
  have hwrite := hnumbers le_rfl
  exact ⟨le_rfl, hcount, (hok _).2 ⟨le_rfl, rfl⟩, hlength, hwrite.1,
    hwrite.2 255 hcount.1 hcount.2⟩

end Expander

end BlsBn254
