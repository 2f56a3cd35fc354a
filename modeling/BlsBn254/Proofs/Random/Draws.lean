import BlsBn254.Keys.Signer
import BlsBn254.Proofs.Hash.Reduction

/-!
# Keys from a source

What is drawn from a source are the bytes at its position, in order: a draw of `m + n` bytes
is a draw of `m` and, from where that ends, one of `n` (`Source.next_add`). Draws of
sixty-four bytes cut the stream into chunks, which follow each other without a gap
(`Source.chunks`).

A pair of keys takes one chunk and nothing else (`Scheme.run_keypair`). So of pairs drawn one
after the other, each is made of a chunk of its own (`Scheme.run_keypairs`).
-/

namespace BlsBn254

namespace Source

/-- The source after its next `n` bytes. -/
def skip (s : Source) (n : ℕ) : Source := ⟨s.stream, s.position + n⟩

theorem skip_skip (s : Source) (m n : ℕ) : (s.skip m).skip n = s.skip (m + n) := by
  rw [skip, skip, skip, Nat.add_assoc]

/-- A long draw is a short one and the rest. -/
theorem next_add (s : Source) (m n : ℕ) : s.next (m + n) = s.next m ++ (s.skip m).next n := by
  rw [next, List.range_add, List.map_append, List.map_map, next, next]
  simp only [skip, Function.comp_def, Nat.add_assoc]

theorem take_next (s : Source) (m n : ℕ) : (s.next n).take m = s.next (min m n) := by
  rw [next, ← List.map_take, List.take_range, next]

theorem drop_next (s : Source) (m n : ℕ) : (s.next n).drop m = (s.skip m).next (n - m) := by
  rcases Nat.le_total m n with h | h
  · obtain ⟨k, rfl⟩ := Nat.exists_eq_add_of_le h
    rw [next_add, List.drop_left' (length_next s m), Nat.add_sub_cancel_left]
  · rw [List.drop_eq_nil_of_le (by rwa [length_next]), Nat.sub_eq_zero_of_le h]
    rfl

/-- The next `n` strings of sixty-four bytes. -/
def chunks (s : Source) (n : ℕ) : List Bytes :=
  (List.range n).map fun i => (s.skip (64 * i)).next 64

theorem chunks_succ (s : Source) (n : ℕ) :
    s.chunks (n + 1) = s.next 64 :: (s.skip 64).chunks n := by
  have hskip : ∀ i, (s.skip 64).skip (64 * i) = s.skip (64 * (i + 1)) := fun i => by
    rw [skip_skip, Nat.mul_succ, Nat.add_comm]
  rw [chunks, List.range_succ_eq_map, List.map_cons, List.map_map, chunks]
  simp only [hskip, Function.comp_def]
  rfl

theorem chunks_isPrefix (s : Source) (m n : ℕ) : s.chunks m <+: s.chunks (m + n) := by
  rw [chunks, chunks, List.range_add, List.map_append]
  exact List.prefix_append _ _

/-- What is drawn from a source of given bytes are these bytes. -/
theorem next_scripted (b : Bytes) : (scripted b).next b.length = b := by
  apply List.ext_getElem (length_next _ _)
  intro i hi hib
  simp [next, scripted, ofStream, List.getD_eq_getElem?_getD, hib]

end Source

theorem Scalar.run_random (s : Source) :
    Scalar.random.run s = (.ofBytes (s.next seedLength), s.skip seedLength) := rfl

namespace Scheme

/-- The pair of keys that random bytes give. -/
def keypairOf (bytes : Bytes) : Scalar × G2 :=
  let k : Scalar := .ofBytes bytes
  (k, publicKey k)

theorem run_keypair (s : Source) : keypair.run s = (keypairOf (s.next 64), s.skip 64) := rfl

theorem run_keypairs_succ (n : ℕ) (s : Source) :
    (keypairs (n + 1)).run s =
      ((keypair.run s).1 :: ((keypairs n).run (keypair.run s).2).1,
        ((keypairs n).run (keypair.run s).2).2) := rfl

/-- Pairs drawn one after the other are made of one chunk each. -/
theorem run_keypairs (n : ℕ) (s : Source) :
    (keypairs n).run s = ((s.chunks n).map keypairOf, s.skip (64 * n)) := by
  induction n generalizing s with
  | zero => rfl
  | succ n ih =>
    rw [run_keypairs_succ, run_keypair, ih, Source.chunks_succ, List.map_cons, Source.skip_skip,
      Nat.mul_succ, Nat.add_comm]

end Scheme

end BlsBn254
