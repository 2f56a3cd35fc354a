import BlsBn254.Error
import BlsBn254.Hash.Sha256

/-!
# Expansion of a message

A message is expanded to as many bytes as wanted, up to 255 digests, under a
*tag* that separates the uses of the hash from each other. The first digest
`b₀` is that of the message, the length and the tag, behind a block of zeroes;
`b₁` is that of `b₀`, and every later `bᵢ` that of the bytewise exclusive or of
`b₀` and the one before, each with its index and the tag. The expansion is what
`b₁`, `b₂`, … begin with.

A tag is followed by its length in one byte, so a tag of more than 255 bytes is
replaced by a digest of itself (`Expander.shortTag`).
-/

namespace BlsBn254

namespace Expander

/-- The length of the longest tag used as it is. -/
def maxTagLength : Nat := 255

/-- The length of the longest expansion: its blocks are counted by a byte. -/
def maxLength : Nat := 255 * Sha256.digestLength

/-! ## The tag -/

/-- What is put before an oversize tag to be hashed. -/
def oversizeLabel : Bytes := Bytes.ofString "H2C-OVERSIZE-DST-"

/-- The tag, or its digest if it is too long. -/
def shortTag (tag : Bytes) : Bytes :=
  if maxTagLength < tag.length then Sha256.digest (oversizeLabel ++ tag) else tag

/-- The tag as it is hashed: the short tag and its length. -/
def tagSuffix (tag : Bytes) : Bytes := shortTag tag ++ Bytes.ofNat 1 (shortTag tag).length

/-! ## The blocks -/

/-- What `b₀` is the digest of. -/
def seedInput (message tag : Bytes) (len : Nat) : Bytes :=
  Bytes.zeros Sha256.blockLength ++ message ++ Bytes.ofNat 2 len ++ [0] ++ tagSuffix tag

/-- What the block of index `i` is the digest of, where `chained` is `b₀`, joined
    for all but the first block with the block before. -/
def blockInput (chained tag : Bytes) (i : Nat) : Bytes :=
  chained ++ Bytes.ofNat 1 i ++ tagSuffix tag

/-- The `n` blocks after the block `last`, which has the index `i`. -/
def laterBlocks (seed tag : Bytes) : (n i : Nat) → (last : Bytes) → List Bytes
  | 0, _, _ => []
  | n + 1, i, last =>
    let block := Sha256.digest (blockInput (Bytes.xor seed last) tag (i + 1))
    block :: laterBlocks seed tag n (i + 1) block

/-- The first `n` blocks. -/
def blocks (seed tag : Bytes) : (n : Nat) → List Bytes
  | 0 => []
  | n + 1 =>
    let first := Sha256.digest (blockInput seed tag 1)
    first :: laterBlocks seed tag n 1 first

/-- The expansion to `len` bytes, for `len` up to the limit. -/
def expand (message tag : Bytes) (len : Nat) : Bytes :=
  let seed := Sha256.digest (seedInput message tag len)
  let count := (len + Sha256.digestLength - 1) / Sha256.digestLength
  (blocks seed tag count).flatten.take len

/-- The expansion to `len` bytes, refused above the limit. -/
def expandMessage (message tag : Bytes) (len : Nat) : Except Error Bytes :=
  if maxLength < len then .error (.expansionTooLong len maxLength)
  else .ok (expand message tag len)

end Expander

end BlsBn254
