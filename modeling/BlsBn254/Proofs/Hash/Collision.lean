import BlsBn254.Bytes.Numbers
import BlsBn254.Hash.Expander
import BlsBn254.Recorded

/-!
# Collisions of the expander

An expansion is bound to the message, the tag and the length that it was made from: if
two expansions begin with the same thirty-two bytes, then these three agree, or two of the
byte strings that were hashed on the way have the same digest
(`Expander.expandMessage_collision`). So the expander is as safe from collisions as the
hash function is.

To say which byte strings are hashed, the expansion is computed with a record of them
(`Expander.recorded`): the digest is the operation that puts its argument down (`Hashed`),
and the value is that of the expander (`Expander.value_recorded`).

The proof goes back from the first digest. The string that it is of begins with the seed,
which has the length of a digest, so that what is left is the tag. The seed is a digest,
too, of a string that ends in the message, the length and the tag; with the tag known, the
length is in the two bytes before it, and what is left is the message.

That a tag is an oversize one is not put down in the expansion, so tags are told apart only
if both are oversize or both are not. Under tags that are not oversize nothing is hashed in
common (`Expander.disjoint_events`), as every string that is hashed ends in the tag and its
length.
-/

namespace BlsBn254

/-! ## Records of what is hashed -/

/-- A value with the byte strings that were hashed on the way to it. -/
abbrev Hashed := Recorded Bytes

/-- The digest of a byte string, which is put down. -/
def Hashed.digest (b : Bytes) : Hashed Bytes := ⟨Sha256.digest b, [b]⟩

theorem Hashed.value_digest (b : Bytes) : (digest b).value = Sha256.digest b := rfl

namespace Expander

/-! ## The expander with a record -/

/-- The short tag, for which an oversize tag is hashed. -/
def recordedTag (tag : Bytes) : Hashed Bytes :=
  if maxTagLength < tag.length then Hashed.digest (oversizeLabel ++ tag) else pure tag

/-- The `n` blocks after the block `last`, which has the index `i`; every string that is
    hashed ends in `suffix`. -/
def recordedLaterBlocks (seed suffix : Bytes) : (n i : ℕ) → (last : Bytes) → Hashed (List Bytes)
  | 0, _, _ => pure []
  | n + 1, i, last => do
    let block ← Hashed.digest (Bytes.xor seed last ++ Bytes.ofNat 1 (i + 1) ++ suffix)
    let others ← recordedLaterBlocks seed suffix n (i + 1) block
    return block :: others

/-- The first `n` blocks. -/
def recordedBlocks (seed suffix : Bytes) : (n : ℕ) → Hashed (List Bytes)
  | 0 => pure []
  | n + 1 => do
    let first ← Hashed.digest (seed ++ Bytes.ofNat 1 1 ++ suffix)
    let others ← recordedLaterBlocks seed suffix n 1 first
    return first :: others

/-- The expansion to `len` bytes, with the byte strings that are hashed on the way to it. -/
def recorded (message tag : Bytes) (len : ℕ) : Hashed Bytes := do
  let short ← recordedTag tag
  let suffix := short ++ Bytes.ofNat 1 short.length
  let seed ← Hashed.digest
    (Bytes.zeros Sha256.blockLength ++ message ++ Bytes.ofNat 2 len ++ [0] ++ suffix)
  let blocks ← recordedBlocks seed suffix
    ((len + Sha256.digestLength - 1) / Sha256.digestLength)
  return blocks.flatten.take len

theorem value_recordedTag (tag : Bytes) : (recordedTag tag).value = shortTag tag := by
  rw [recordedTag, shortTag, apply_ite Recorded.value]
  rfl

theorem value_recordedLaterBlocks (seed tag : Bytes) (n i : ℕ) (last : Bytes) :
    (recordedLaterBlocks seed (tagSuffix tag) n i last).value = laterBlocks seed tag n i last := by
  induction n generalizing i last with
  | zero => rfl
  | succ n ih => exact congrArg (_ :: ·) (ih _ _)

theorem value_recordedBlocks (seed tag : Bytes) (n : ℕ) :
    (recordedBlocks seed (tagSuffix tag) n).value = blocks seed tag n := by
  cases n with
  | zero => rfl
  | succ n => exact congrArg (_ :: ·) (value_recordedLaterBlocks _ _ _ _ _)

/-- The record is one of the expander: it arrives at the same value. -/
theorem value_recorded (message tag : Bytes) (len : ℕ) :
    (recorded message tag len).value = expand message tag len := by
  rw [recorded, Recorded.value_bind, Recorded.value_bind, Recorded.value_bind, Recorded.value_pure,
    Hashed.value_digest, value_recordedTag, expand, ← value_recordedBlocks, seedInput, tagSuffix]

/-- A positive number of bytes takes a positive number of blocks. -/
theorem exists_blockCount_eq {len : ℕ} (hlen : 0 < len) :
    ∃ n, (len + Sha256.digestLength - 1) / Sha256.digestLength = n + 1 :=
  Nat.exists_eq_succ_of_ne_zero (by rw [Sha256.digestLength]; omega)

/-! ## What is hashed -/

section Inputs

variable {message tag : Bytes} {len : ℕ}

/-- An oversize tag is hashed, -/
theorem oversize_mem_events (h : maxTagLength < tag.length) :
    oversizeLabel ++ tag ∈ (recorded message tag len).events := by
  rw [recorded, Recorded.events_bind, recordedTag, if_pos h]
  exact List.mem_append_left _ (List.mem_singleton_self _)

/-- and so is what the seed is the digest of, -/
theorem seedInput_mem_events :
    seedInput message tag len ∈ (recorded message tag len).events := by
  rw [recorded, Recorded.events_bind, value_recordedTag, Recorded.events_bind]
  exact List.mem_append_right _ (List.mem_append_left _ (List.mem_singleton_self _))

/-- and what the first block is the digest of. -/
theorem firstInput_mem_events (hlen : 0 < len) :
    blockInput (Sha256.digest (seedInput message tag len)) tag 1 ∈
      (recorded message tag len).events := by
  obtain ⟨n, hn⟩ := exists_blockCount_eq hlen
  rw [recorded, Recorded.events_bind, value_recordedTag, Recorded.events_bind,
    Recorded.events_bind, hn, recordedBlocks, Recorded.events_bind]
  exact List.mem_append_right _ (List.mem_append_right _ (List.mem_append_left _
    (List.mem_append_left _ (List.mem_singleton_self _))))

end Inputs

/-- An expansion begins with the digest of the first block. -/
theorem take_expand {message tag : Bytes} {len : ℕ} (hlen : Sha256.digestLength ≤ len) :
    (expand message tag len).take Sha256.digestLength =
      Sha256.digest (blockInput (Sha256.digest (seedInput message tag len)) tag 1) := by
  obtain ⟨n, hn⟩ := exists_blockCount_eq (lt_of_lt_of_le (by decide) hlen)
  rw [expand, hn, blocks, List.flatten_cons, List.take_take, min_eq_left hlen]
  exact List.take_left' (Sha256.length_digest _)

/-! ## Parts of what is hashed -/

/-- The last byte is the length of the short tag, which leaves the tag before it. -/
theorem shortTag_eq_of_tagSuffix_eq {s t : Bytes} (h : tagSuffix s = tagSuffix t) :
    shortTag s = shortTag t :=
  (List.append_inj' h ((Bytes.length_ofNat _ _).trans (Bytes.length_ofNat _ _).symm)).1

/-- Blocks that begin with strings of the same length begin with the same string, and end
    in the same tag. -/
theorem eq_of_blockInput_eq {b c s t : Bytes} {i : ℕ} (hlen : b.length = c.length)
    (h : blockInput b s i = blockInput c t i) : b = c ∧ tagSuffix s = tagSuffix t := by
  have hlen' : (b ++ Bytes.ofNat 1 i).length = (c ++ Bytes.ofNat 1 i).length := by
    rw [List.length_append, List.length_append, hlen]
  obtain ⟨hhead, hsuffix⟩ := List.append_inj h hlen'
  exact ⟨List.append_cancel_right hhead, hsuffix⟩

/-- Seeds under the same tag are those of the same message and length, if the length fits
    into the two bytes that it has. -/
theorem eq_of_seedInput_eq {a b s t : Bytes} {m n : ℕ} (hm : m < 256 ^ 2) (hn : n < 256 ^ 2)
    (hsuffix : tagSuffix s = tagSuffix t) (h : seedInput a s m = seedInput b t n) :
    a = b ∧ m = n := by
  rw [seedInput, seedInput, hsuffix] at h
  have hlen : (Bytes.ofNat 2 m).length = (Bytes.ofNat 2 n).length :=
    (Bytes.length_ofNat 2 m).trans (Bytes.length_ofNat 2 n).symm
  obtain ⟨hmessage, hnumber⟩ :=
    List.append_inj' (List.append_cancel_right (List.append_cancel_right h)) hlen
  refine ⟨List.append_cancel_left hmessage, ?_⟩
  rw [← Bytes.toNat_ofNat hm, hnumber, Bytes.toNat_ofNat hn]

/-! ## Domains -/

section Domains

variable {suffix : Bytes}

/-- Every string that is hashed for a later block ends in the tag, -/
theorem suffix_laterBlocks (seed : Bytes) (n i : ℕ) (last : Bytes) :
    ∀ x ∈ (recordedLaterBlocks seed suffix n i last).events, suffix <:+ x := by
  induction n generalizing i last with
  | zero => exact List.forall_mem_nil _
  | succ n ih =>
    rw [recordedLaterBlocks, Recorded.forall_events_bind, Recorded.forall_events_bind]
    exact ⟨List.forall_mem_singleton.2 (List.suffix_append _ _), ih _ _, List.forall_mem_nil _⟩

/-- and so does every one that is hashed for a block, -/
theorem suffix_blocks (seed : Bytes) (n : ℕ) :
    ∀ x ∈ (recordedBlocks seed suffix n).events, suffix <:+ x := by
  cases n with
  | zero => exact List.forall_mem_nil _
  | succ n =>
    rw [recordedBlocks, Recorded.forall_events_bind, Recorded.forall_events_bind]
    exact ⟨List.forall_mem_singleton.2 (List.suffix_append _ _), suffix_laterBlocks _ _ _ _,
      List.forall_mem_nil _⟩

/-- and every one at all, if the tag is not an oversize one. -/
theorem suffix_recorded {tag : Bytes} (htag : tag.length ≤ maxTagLength) (message : Bytes)
    (len : ℕ) :
    ∀ x ∈ (recorded message tag len).events, tag ++ Bytes.ofNat 1 tag.length <:+ x := by
  have hshort : recordedTag tag = pure tag := if_neg (not_lt.2 htag)
  rw [recorded, hshort, Recorded.forall_events_bind, Recorded.forall_events_bind,
    Recorded.forall_events_bind, Recorded.value_pure]
  exact ⟨List.forall_mem_nil _, List.forall_mem_singleton.2 (List.suffix_append _ _),
    suffix_blocks _ _, List.forall_mem_nil _⟩

end Domains

/-- No string is hashed under two tags that are not oversize. -/
theorem disjoint_events {s t : Bytes} (hs : s.length ≤ maxTagLength) (ht : t.length ≤ maxTagLength)
    (hne : s ≠ t) (a b : Bytes) (m n : ℕ) :
    List.Disjoint (recorded a s m).events (recorded b t n).events := by
  intro x hxs hxt
  obtain ⟨c, rfl⟩ := suffix_recorded hs a m x hxs
  obtain ⟨d, h⟩ := suffix_recorded ht b n _ hxt
  -- The last byte is the length of the tag, which is what stands before it.
  rw [← List.append_assoc, ← List.append_assoc] at h
  obtain ⟨htags, hbyte⟩ :=
    List.append_inj' h ((Bytes.length_ofNat 1 _).trans (Bytes.length_ofNat 1 _).symm)
  have hlimit : maxTagLength < 256 ^ 1 := by decide
  have hlen : t.length = s.length := by
    rw [← Bytes.toNat_ofNat (ht.trans_lt hlimit), hbyte, Bytes.toNat_ofNat (hs.trans_lt hlimit)]
  exact hne (List.append_inj' htags hlen).2.symm

end Expander

/-! ## Collisions -/

/-- Two different byte strings, one of each list, have the same digest. -/
def Sha256.Collide (xs ys : List Bytes) : Prop :=
  ∃ x ∈ xs, ∃ y ∈ ys, x ≠ y ∧ digest x = digest y

instance (xs ys : List Bytes) : Decidable (Sha256.Collide xs ys) :=
  inferInstanceAs (Decidable (∃ x ∈ xs, ∃ y ∈ ys, x ≠ y ∧ Sha256.digest x = Sha256.digest y))

/-- Strings with the same digest agree, or else collide. -/
theorem Sha256.eq_or_collide {xs ys : List Bytes} {x y : Bytes} (hx : x ∈ xs) (hy : y ∈ ys)
    (h : digest x = digest y) : x = y ∨ Collide xs ys := by
  rcases eq_or_ne x y with heq | hne
  · exact .inl heq
  · exact .inr ⟨x, hx, y, hy, hne, h⟩

namespace Expander

/-- Tags of the same kind that are shortened to the same tag agree, or oversize ones
    collide. -/
theorem tag_eq_or_collide {m₁ t₁ m₂ t₂ : Bytes} {n₁ n₂ : ℕ}
    (hkind : t₁.length ≤ maxTagLength ↔ t₂.length ≤ maxTagLength)
    (h : shortTag t₁ = shortTag t₂) :
    t₁ = t₂ ∨ Sha256.Collide (recorded m₁ t₁ n₁).events (recorded m₂ t₂ n₂).events := by
  rw [shortTag, shortTag] at h
  rcases le_or_gt t₁.length maxTagLength with h₁ | h₁
  · rw [if_neg (not_lt.2 h₁), if_neg (not_lt.2 (hkind.1 h₁))] at h
    exact .inl h
  · have h₂ : maxTagLength < t₂.length := not_le.1 (mt hkind.2 (not_le.2 h₁))
    rw [if_pos h₁, if_pos h₂] at h
    exact (Sha256.eq_or_collide (oversize_mem_events h₁) (oversize_mem_events h₂) h).imp_left
      List.append_cancel_left

/-- If two expansions, under tags that are both oversize or both not, begin with the same
    thirty-two bytes, then message, tag and length are the same, or one of the strings hashed
    on the way to the one and one of those hashed on the way to the other are different
    and have the same digest. -/
theorem expandMessage_collision (m₁ t₁ m₂ t₂ : Bytes) {n₁ n₂ : ℕ} (hn₁ : 32 ≤ n₁ ∧ n₁ ≤ 8160)
    (hn₂ : 32 ≤ n₂ ∧ n₂ ≤ 8160) (hkind : t₁.length ≤ 255 ↔ t₂.length ≤ 255) :
    expandMessage m₁ t₁ n₁ = .ok (recorded m₁ t₁ n₁).value ∧
      expandMessage m₂ t₂ n₂ = .ok (recorded m₂ t₂ n₂).value ∧
      ((recorded m₁ t₁ n₁).value.take 32 = (recorded m₂ t₂ n₂).value.take 32 →
        (m₁, t₁, n₁) = (m₂, t₂, n₂) ∨
          Sha256.Collide (recorded m₁ t₁ n₁).events (recorded m₂ t₂ n₂).events) := by
  rw [value_recorded, value_recorded]
  refine ⟨if_neg (not_lt.2 hn₁.2), if_neg (not_lt.2 hn₂.2), fun h => ?_⟩
  -- The first blocks are digests of strings that begin with the seeds.
  have hfirst := (take_expand hn₁.1).symm.trans (h.trans (take_expand hn₂.1))
  rcases Sha256.eq_or_collide (firstInput_mem_events (by omega))
    (firstInput_mem_events (by omega)) hfirst with hfirst | hcollide
  case inr => exact .inr hcollide
  obtain ⟨hseed, hsuffix⟩ := eq_of_blockInput_eq (by simp only [Sha256.length_digest]) hfirst
  rcases Sha256.eq_or_collide seedInput_mem_events seedInput_mem_events hseed with
    hseed | hcollide
  case inr => exact .inr hcollide
  obtain ⟨rfl, rfl⟩ := eq_of_seedInput_eq (by omega) (by omega) hsuffix hseed
  exact (tag_eq_or_collide hkind (shortTag_eq_of_tagSuffix_eq hsuffix)).imp_left
    fun htag => congrArg (fun t => (m₁, t, n₁)) htag

/-- An expansion is not the beginning of a longer one: for the message `a` and the tag `b`,
    no two of the strings that are hashed for thirty-two and for sixty-four bytes have the
    same digest. -/
theorem expandMessage_longer :
    (32 ≤ 32 ∧ 32 ≤ 8160) ∧ (32 ≤ 64 ∧ 64 ≤ 8160) ∧
      ¬Sha256.Collide (recorded [97] [98] 32).events (recorded [97] [98] 64).events ∧
      expandMessage [97] [98] 32 = .ok (recorded [97] [98] 32).value ∧
      expandMessage [97] [98] 64 = .ok (recorded [97] [98] 64).value ∧
      (recorded [97] [98] 32).value.take 32 ≠ (recorded [97] [98] 64).value.take 32 := by
  have hshort : 32 ≤ 32 ∧ 32 ≤ 8160 := by decide
  have hlong : 32 ≤ 64 ∧ 64 ≤ 8160 := by decide
  have hapart : ¬Sha256.Collide (recorded [97] [98] 32).events (recorded [97] [98] 64).events := by
    decide +kernel
  obtain ⟨h₁, h₂, h⟩ := expandMessage_collision [97] [98] [97] [98] hshort hlong Iff.rfl
  refine ⟨hshort, hlong, hapart, h₁, h₂, fun heq => ?_⟩
  rcases h heq with hsame | hcollide
  · exact absurd hsame (by decide)
  · exact hapart hcollide

end Expander

end BlsBn254
