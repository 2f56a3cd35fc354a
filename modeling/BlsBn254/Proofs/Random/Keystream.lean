import BlsBn254.Proofs.Random.Draws

/-!
# Keys from the keystream

The source that a number determines yields the blocks of its keystream one after the other
(`ChaCha.next_eq_block`). A generator of this stream makes blocks ahead, some at a time, and
keeps their words until they are used (`ChaCha.Generator`). Wherever it stands, the words kept
are the bytes that come next in the source, and the block that is made next begins after them
(`ChaCha.Generator.Follows`). Making blocks keeps that, and so does using words. So bytes
written a word at a time are those drawn from the source, however many blocks are made ahead
(`ChaCha.Generator.Follows.fill`).

As a pair of keys takes sixty-four bytes, which is the length of a block, every pair drawn from
such a source is made of the block of its own index alone (`keypairs_consume_stream`).
-/

namespace BlsBn254

namespace ChaCha

/-! ## Blocks -/

/-- The words of the block of the given index. -/
def blockWords (key : Key) (index : UInt64) : List UInt32 :=
  let s := State.initial key index
  let mixed := (List.range 6).foldl (fun s _ => s.doubleRound) s
  (Vector.zipWith (· + ·) s mixed).toList

theorem block_eq (key : Key) (index : UInt64) :
    block key index = (blockWords key index).flatMap ofWord := rfl

theorem length_blockWords (key : Key) (index : UInt64) : (blockWords key index).length = 16 :=
  Vector.length_toList

theorem length_flatMap_ofWord (words : List UInt32) :
    (words.flatMap ofWord).length = 4 * words.length := by
  induction words with
  | nil => rfl
  | cons w words ih =>
    rw [List.flatMap_cons, List.length_append, ih, List.length_cons, Nat.mul_succ, Nat.add_comm]
    rfl

theorem length_block (key : Key) (index : UInt64) : (block key index).length = 64 := by
  rw [block_eq, length_flatMap_ofWord, length_blockWords]

theorem drop_flatMap_ofWord (words : List UInt32) (n : ℕ) :
    (words.flatMap ofWord).drop (4 * n) = (words.drop n).flatMap ofWord := by
  rcases Nat.le_total n words.length with h | h
  · -- The words before make up the bytes that are dropped.
    have hlen : ((words.take n).flatMap ofWord).length = 4 * n := by
      rw [length_flatMap_ofWord, List.length_take_of_le h]
    rw [← List.take_append_drop n words, List.flatMap_append, List.drop_left' hlen,
      List.take_append_drop]
  · rw [List.drop_eq_nil_of_le h, List.drop_eq_nil_of_le]
    · rfl
    · rw [length_flatMap_ofWord]
      exact Nat.mul_le_mul_left 4 h

/-- From the beginning of a block, a source yields that block. -/
theorem next_eq_block {key : Key} {s : Source} (hs : s.stream = stream key) {k : ℕ}
    (hk : s.position = 64 * k) : s.next 64 = block key (.ofNat k) := by
  have hlen := length_block key (.ofNat k)
  apply List.ext_getElem ((s.length_next 64).trans hlen.symm)
  intro i hi hib
  rw [s.length_next] at hi
  have hdiv : (64 * k + i) / blockLength = k := by rw [blockLength]; omega
  have hmod : (64 * k + i) % blockLength = i := by rw [blockLength]; omega
  simp only [Source.next, List.getElem_map, List.getElem_range, hs, hk, stream, hdiv, hmod]
  exact List.getD_eq_getElem _ _ hib

/-- From the beginning of a block, a source yields block after block. -/
theorem next_eq_flatMap_block {key : Key} {s : Source} (hs : s.stream = stream key) {k : ℕ}
    (hk : s.position = 64 * k) (n : ℕ) :
    s.next (64 * n) = (List.range n).flatMap fun j => block key (.ofNat (k + j)) := by
  induction n with
  | zero => rfl
  | succ n ih =>
    have hposition : (s.skip (64 * n)).position = 64 * (k + n) := by
      rw [Nat.mul_add, ← hk]
      rfl
    have hblock : (s.skip (64 * n)).next 64 = block key (.ofNat (k + n)) :=
      next_eq_block (s := s.skip (64 * n)) hs hposition
    rw [Nat.mul_succ, Source.next_add, ih, hblock, List.range_succ, List.flatMap_append,
      List.flatMap_singleton]

/-! ## Generators -/

/-- A generator of the keystream that makes blocks ahead. -/
structure Generator where
  /-- The key. -/
  key : Key
  /-- The index of the block that is made next. -/
  index : UInt64
  /-- The words that have been made and not been used. -/
  words : List UInt32

namespace Generator

/-- The generator at the beginning of the stream of a number. -/
def ofSeed (seed : UInt64) : Generator := ⟨keyOfSeed seed, 0, []⟩

/-- Makes the next `ahead + 1` blocks if no words are left. -/
def refill (ahead : ℕ) (g : Generator) : Generator :=
  if g.words = [] then
    ⟨g.key, g.index + .ofNat (ahead + 1),
      (List.range (ahead + 1)).flatMap fun j => blockWords g.key (g.index + .ofNat j)⟩
  else g

theorem length_refill_pos (ahead : ℕ) (g : Generator) : 0 < (g.refill ahead).words.length := by
  rw [refill]
  split
  · rw [List.length_flatMap]
    simp [length_blockWords]
  · exact List.length_pos_of_ne_nil ‹_›

/-- Writes up to `n` bytes from the words there are. Of the last word the bytes that are not
    wanted are lost. -/
def write (ahead n : ℕ) (g : Generator) : Bytes × Generator :=
  let g := g.refill ahead
  let bytes := (g.words.flatMap ofWord).take n
  (bytes, { g with words := g.words.drop ((bytes.length + 3) / 4) })

theorem length_write (ahead n : ℕ) (g : Generator) :
    (g.write ahead n).1.length = min n (4 * (g.refill ahead).words.length) := by
  rw [write, List.length_take, length_flatMap_ofWord]

/-- Writes `n` bytes. -/
def fill (ahead n : ℕ) (g : Generator) : Bytes × Generator :=
  if n = 0 then ([], g)
  else
    let first := g.write ahead n
    let rest := first.2.fill ahead (n - first.1.length)
    (first.1 ++ rest.1, rest.2)
termination_by n
decreasing_by
  have hpos := length_refill_pos ahead g
  rw [length_write]
  omega

theorem fill_zero (ahead : ℕ) (g : Generator) : g.fill ahead 0 = ([], g) := by
  rw [fill, if_pos rfl]

theorem fill_of_pos (ahead : ℕ) {n : ℕ} (hn : 0 < n) (g : Generator) :
    g.fill ahead n =
      let first := g.write ahead n
      let rest := first.2.fill ahead (n - first.1.length)
      (first.1 ++ rest.1, rest.2) := by
  rw [fill, if_neg hn.ne']

/-- Writes `n` strings of sixty-four bytes. -/
def draws (ahead : ℕ) : (n : ℕ) → Generator → List Bytes × Generator
  | 0, g => ([], g)
  | n + 1, g =>
    let first := g.fill ahead 64
    let others := draws ahead n first.2
    (first.1 :: others.1, others.2)

/-! ## Generators and sources -/

/-- The generator stands where the source does: the words left are the next bytes, and the
    block that is made next begins after them. -/
structure Follows (g : Generator) (s : Source) : Prop where
  stream_eq : s.stream = stream g.key
  words_eq : g.words.flatMap ofWord = s.next (4 * g.words.length)
  index_eq : ∃ k, g.index = .ofNat k ∧ s.position + 4 * g.words.length = 64 * k

theorem follows_ofSeed (seed : UInt64) : (ofSeed seed).Follows (source seed) :=
  ⟨rfl, rfl, 0, rfl, rfl⟩

namespace Follows

variable {g : Generator} {s : Source}

/-- Making blocks keeps the place. -/
theorem refill (h : g.Follows s) (ahead : ℕ) : (g.refill ahead).Follows s := by
  rw [Generator.refill]
  split
  · next hempty =>
    obtain ⟨k, hindex, hk⟩ := h.index_eq
    rw [hempty, List.length_nil, Nat.mul_zero, Nat.add_zero] at hk
    have hlen : ((List.range (ahead + 1)).flatMap fun j =>
        blockWords g.key (g.index + .ofNat j)).length = 16 * (ahead + 1) := by
      simp [List.length_flatMap, length_blockWords, Nat.mul_comm]
    refine ⟨h.stream_eq, ?_, k + (ahead + 1), ?_, ?_⟩
    · rw [hlen, ← Nat.mul_assoc, next_eq_flatMap_block h.stream_eq hk, List.flatMap_assoc]
      simp only [block_eq, hindex, UInt64.ofNat_add]
    · simp only [hindex, UInt64.ofNat_add]
    · rw [hlen, hk]
      omega
  · exact h

/-- Using words moves on by their bytes. -/
theorem drop (h : g.Follows s) {n : ℕ} (hn : n ≤ g.words.length) :
    (⟨g.key, g.index, g.words.drop n⟩ : Generator).Follows (s.skip (4 * n)) := by
  obtain ⟨k, hindex, hk⟩ := h.index_eq
  refine ⟨h.stream_eq, ?_, k, hindex, ?_⟩
  · rw [← drop_flatMap_ofWord, h.words_eq, Source.drop_next, List.length_drop, Nat.mul_sub]
  · rw [← hk, List.length_drop, Source.skip]
    dsimp only
    omega

/-- If whole words are wanted, some of them are written, as the next bytes of the source. -/
theorem write (h : g.Follows s) (ahead n : ℕ) :
    ∃ m ≤ n, (0 < n → 0 < m) ∧ (g.write ahead (4 * n)).1 = s.next (4 * m) ∧
      (g.write ahead (4 * n)).2.Follows (s.skip (4 * m)) := by
  have hrefill := h.refill ahead
  have hpos := length_refill_pos ahead g
  have hbytes : (g.write ahead (4 * n)).1 =
      s.next (4 * min n (g.refill ahead).words.length) := by
    rw [Generator.write, hrefill.words_eq, Source.take_next, Nat.mul_min_mul_left]
  refine ⟨_, Nat.min_le_left _ _, fun hn => Nat.lt_min.2 ⟨hn, hpos⟩, hbytes, ?_⟩
  have hused : ((g.write ahead (4 * n)).1.length + 3) / 4 =
      min n (g.refill ahead).words.length := by
    rw [hbytes, Source.length_next]
    omega
  rw [← hused]
  exact hrefill.drop (hused ▸ Nat.min_le_right _ _)

/-- Bytes are written as they are drawn from the source. -/
theorem fill (h : g.Follows s) (ahead n : ℕ) :
    (g.fill ahead (4 * n)).1 = s.next (4 * n) ∧
      (g.fill ahead (4 * n)).2.Follows (s.skip (4 * n)) := by
  induction n using Nat.strong_induction_on generalizing g s with
  | _ n ih =>
    rcases Nat.eq_zero_or_pos n with rfl | hn
    · rw [Nat.mul_zero, fill_zero]
      exact ⟨rfl, h⟩
    · -- What is missing after the first words are whole words again, and fewer.
      obtain ⟨m, hmn, hm, hbytes, hfollows⟩ := h.write ahead n
      obtain ⟨hrest, hend⟩ := ih (n - m) (Nat.sub_lt hn (hm hn)) hfollows
      have hmissing : 4 * n - (g.write ahead (4 * n)).1.length = 4 * (n - m) := by
        rw [hbytes, Source.length_next, Nat.mul_sub]
      have hall : 4 * m + 4 * (n - m) = 4 * n := by omega
      rw [fill_of_pos ahead (Nat.mul_pos four_pos hn)]
      dsimp only
      rw [hmissing]
      refine ⟨?_, ?_⟩
      · rw [hbytes, hrest, ← Source.next_add, hall]
      · rwa [Source.skip_skip, hall] at hend

/-- Strings written one after the other are the chunks of the source. -/
theorem draws (h : g.Follows s) (ahead n : ℕ) :
    (g.draws ahead n).1 = s.chunks n ∧ (g.draws ahead n).2.Follows (s.skip (64 * n)) := by
  induction n generalizing g s with
  | zero => exact ⟨rfl, h⟩
  | succ n ih =>
    obtain ⟨hfirst, hfollows⟩ := h.fill ahead 16
    obtain ⟨hothers, hend⟩ := ih hfollows
    rw [Generator.draws]
    refine ⟨?_, ?_⟩
    · rw [hfirst, hothers, Source.chunks_succ]
    · rwa [Source.skip_skip, Nat.add_comm, ← Nat.mul_succ] at hend

end Follows

end Generator

/-- The chunks of the source that a number determines are the blocks of its keystream. -/
theorem chunks_source (seed : UInt64) (n : ℕ) :
    (source seed).chunks n =
      (List.range n).map fun i => block (keyOfSeed seed) (.ofNat i) := by
  refine List.map_congr_left fun i _ => ?_
  exact next_eq_block rfl (Nat.zero_add _)

end ChaCha

/-! ## Runs -/

/-- Pairs drawn one after the other from any source take sixty-four bytes each, without a gap
    and without a byte that is used twice: the private key is the integer that these write
    modulo `r`, and the public key belongs to it. For the source that a number determines, the
    bytes of a pair are the block of its index. A generator yields these blocks in order, and
    then stands where the source does, however many blocks it makes ahead. A shorter run is the
    beginning of a longer one, and the private key of the number is the first of every run. -/
theorem keypairs_consume_stream :
    (∀ (s : Source) (n : ℕ),
        (Scheme.keypairs n).run s =
          ((List.range n).map fun i => Scheme.keypairOf
              ((List.range 64).map fun j => s.stream (s.position + 64 * i + j)),
            ⟨s.stream, s.position + 64 * n⟩)) ∧
      (∀ b : Bytes,
        (Scheme.keypairOf b).1.val = Bytes.toInteger b % r ∧
          (Scheme.keypairOf b).2 = Scheme.publicKey (Scheme.keypairOf b).1) ∧
      (∀ (seed : UInt64) (n : ℕ),
        let blocks := (List.range n).map fun i => ChaCha.block (ChaCha.keyOfSeed seed) (.ofNat i)
        ((Scheme.keypairs n).run (ChaCha.source seed)).1 = blocks.map Scheme.keypairOf ∧
          ∀ ahead,
            let run := (ChaCha.Generator.ofSeed seed).draws ahead n
            run.1 = blocks ∧ run.2.Follows ((ChaCha.source seed).skip (64 * n))) ∧
      (∀ (s : Source) (m n : ℕ),
        ((Scheme.keypairs m).run s).1 <+: ((Scheme.keypairs (m + n)).run s).1) ∧
      ∀ (seed : UInt64) (n : ℕ),
        PrivateKey.ofSeed seed = (PrivateKey.random.run (ChaCha.source seed)).1 ∧
          ((Scheme.keypairs (n + 1)).run (ChaCha.source seed)).1.head?.map
            (fun pair => (Packed.of pair.1 : PrivateKey)) = some (PrivateKey.ofSeed seed) := by
  refine ⟨fun s n => ?_, fun b => ⟨?_, rfl⟩, fun seed n => ⟨?_, fun ahead => ?_⟩,
    fun s m n => ?_, fun seed n => ⟨rfl, ?_⟩⟩
  · rw [Scheme.run_keypairs, Source.chunks, List.map_map]
    rfl
  · rw [← Bytes.toNat_eq_toInteger]
    rfl
  · rw [Scheme.run_keypairs, ChaCha.chunks_source]
  · rw [← ChaCha.chunks_source]
    exact (ChaCha.Generator.follows_ofSeed seed).draws ahead n
  · rw [Scheme.run_keypairs, Scheme.run_keypairs]
    exact (s.chunks_isPrefix m n).map Scheme.keypairOf
  · rw [Scheme.run_keypairs_succ]
    rfl

end BlsBn254
