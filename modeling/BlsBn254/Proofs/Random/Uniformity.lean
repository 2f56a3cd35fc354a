import BlsBn254.Proofs.Field.Primality
import BlsBn254.Proofs.Random.Distance
import BlsBn254.Proofs.Random.Draws

/-!
# Random and hashed elements are close to uniform

A byte string is reduced to an element of a field by dividing the number that it writes by
the order of the field. The strings of one length write every number below a power of 256
once (`Residue.bijOn_toNat`), and so the elements come from equally many of them, up to one
(`Residue.ncard_ofBytes`).

The distance from uniform is then at most half the order over the number of strings
(`Residue.distance_lt`). A scalar is drawn from sixty-four bytes, and an element of the base
field is hashed from forty-eight, where thirty-two would write it. So the distance is below
`2 ^ -250` for the one and below `2 ^ -128` for the other (`reduction_nearly_uniform`).
-/

namespace BlsBn254

namespace Residue

variable {m : ℕ} [Modulus m]

/-- The strings that are reduced to a residue are those that write one of its numbers. -/
theorem bijOn_toNat (n : ℕ) (v : Residue m) :
    Set.BijOn Bytes.toNat {b | b.length = n ∧ ofBytes b = v}
      ((Finset.range (256 ^ n)).filter (· ≡ v.val [MOD m])) := by
  have hv : ∀ b : Bytes, ofBytes b = v ↔ b.toNat ≡ v.val [MOD m] := fun b => by
    rw [Residue.ext_iff, ofBytes, val_ofNat, Nat.ModEq, Nat.mod_eq_of_lt v.isLt]
  refine ⟨fun b hb => ?_, fun b hb c hc h => ?_, fun k hk => ?_⟩
  · obtain ⟨rfl, hb⟩ := hb
    rw [Finset.mem_coe, Finset.mem_filter, Finset.mem_range]
    exact ⟨Bytes.toNat_lt b, (hv b).1 hb⟩
  · exact Bytes.toNat_injective (hb.1.trans hc.1.symm) h
  · rw [Finset.mem_coe, Finset.mem_filter, Finset.mem_range] at hk
    have hread := Bytes.toNat_ofNat hk.1
    exact ⟨.ofNat n k, ⟨Bytes.length_ofNat n k, (hv _).2 (hread.symm ▸ hk.2)⟩, hread⟩

/-- Every residue comes from as many strings of length `n` as the modulus goes into the
    number of all of them, or from one more. -/
theorem ncard_ofBytes (n : ℕ) (v : Residue m) :
    {b : Bytes | b.length = n ∧ ofBytes b = v}.ncard = 256 ^ n / m ∨
      {b : Bytes | b.length = n ∧ ofBytes b = v}.ncard = 256 ^ n / m + 1 := by
  rw [(bijOn_toNat n v).ncard_eq, Set.ncard_coe_finset, ← Nat.count_eq_card_filter_range,
    Nat.count_modEq_card _ Modulus.pos]
  split
  · exact .inr rfl
  · exact .inl rfl

end Residue

/-! ## Counts -/

/-- The strings from which a scalar is drawn are those that are reduced to it, whatever the
    source has before and after them. -/
theorem Scalar.forall_source_iff {b : Bytes} {v : Scalar} (hb : b.length = seedLength) :
    (∀ s : Source, s.next seedLength = b → (random.run s).1 = v) ↔ .ofBytes b = v := by
  constructor
  · intro h
    have hscripted : (Source.scripted b).next seedLength = b := hb ▸ Source.next_scripted b
    rw [← h _ hscripted, run_random, hscripted]
  · rintro rfl s rfl
    rfl

theorem Scalar.ncard_seeds (v : Scalar) :
    let seeds := {b : Bytes | b.length = seedLength ∧
      ∀ s : Source, s.next seedLength = b → (random.run s).1 = v}
    seeds.ncard = 256 ^ seedLength / r ∨ seeds.ncard = 256 ^ seedLength / r + 1 := by
  intro seeds
  have hseeds : seeds = {b | b.length = seedLength ∧ .ofBytes b = v} :=
    Set.ext fun b => and_congr_right forall_source_iff
  rw [hseeds]
  exact Residue.ncard_ofBytes seedLength v

theorem FieldHash.ncard_chunks (v : Fp) :
    let chunks := {c : Bytes | c.length = chunkLength ∧ reduce c = v}
    chunks.ncard = 256 ^ chunkLength / p ∨ chunks.ncard = 256 ^ chunkLength / p + 1 := by
  intro chunks
  have hchunks : chunks = {c | c.length = chunkLength ∧ .ofBytes c = v} :=
    Set.ext fun c => and_congr_right fun hc => by rw [reduce_eq hc]
  rw [hchunks]
  exact Residue.ncard_ofBytes chunkLength v

/-! ## Distances -/

theorem div_lt_two_zpow {m n k : ℕ} (h : m * 2 ^ k < 2 * 256 ^ n) :
    (m : ℝ) / 256 ^ n / 2 < 2 ^ (-k : ℤ) := by
  have hreal : (m : ℝ) * 2 ^ k < 2 * 256 ^ n := by exact_mod_cast h
  rw [zpow_neg, zpow_natCast, div_div, ← one_div, div_lt_div_iff₀ (by positivity) (by positivity),
    one_mul, mul_comm _ (2 : ℝ)]
  exact hreal

/-- Residues that come from equally many strings, up to one, are close to uniform if the
    strings are much longer than the modulus. -/
theorem Residue.distance_lt {m n k : ℕ} [Modulus m] {f : Bytes → Residue m}
    (hf : ∀ v, {b | b.length = n ∧ f b = v}.ncard = 256 ^ n / m ∨
      {b | b.length = n ∧ f b = v}.ncard = 256 ^ n / m + 1)
    (h : m * 2 ^ k < 2 * 256 ^ n) :
    statisticalDistance ((Bytes.uniform n).map f) (PMF.uniformOfFintype (Residue m)) <
      2 ^ (-k : ℤ) := by
  have hle := Bytes.statisticalDistance_map_uniform_le (f := f) (by rwa [card_eq])
  rw [card_eq] at hle
  exact hle.trans_lt (div_lt_two_zpow h)

/-- Every scalar is drawn for the same number of strings of sixty-four bytes, or for one more,
    and every element of the base field is what as many chunks of forty-eight bytes are reduced
    to, or one more. If a source yields uniform bytes next, then the scalar drawn is close to
    uniform, and so is the element that a uniform chunk is reduced to. -/
theorem reduction_nearly_uniform :
    (∀ v : Scalar,
        let seeds := {b : Bytes | b.length = 64 ∧
          ∀ s : Source, s.next 64 = b → (Scalar.random.run s).1 = v}
        seeds.ncard = 2 ^ 512 / r ∨ seeds.ncard = 2 ^ 512 / r + 1) ∧
      (∀ v : Fp,
        let chunks := {c : Bytes | c.length = 48 ∧ FieldHash.reduce c = v}
        chunks.ncard = 2 ^ 384 / p ∨ chunks.ncard = 2 ^ 384 / p + 1) ∧
      (∀ μ : PMF Source, μ.map (fun s => s.next 64) = Bytes.uniform 64 →
        statisticalDistance (μ.map fun s => (Scalar.random.run s).1)
          (PMF.uniformOfFintype Scalar) < 2 ^ (-250 : ℤ)) ∧
      statisticalDistance ((Bytes.uniform 48).map FieldHash.reduce)
        (PMF.uniformOfFintype Fp) < 2 ^ (-128 : ℤ) := by
  have hpow : ∀ n, (2 : ℕ) ^ (8 * n) = 256 ^ n := pow_mul 2 8
  refine ⟨fun v => ?_, fun v => ?_, fun μ hμ => ?_, ?_⟩
  · rw [show 512 = 8 * 64 from rfl, hpow]
    exact Scalar.ncard_seeds v
  · rw [show 384 = 8 * 48 from rfl, hpow]
    exact FieldHash.ncard_chunks v
  · have hbytes : (μ.map fun s => (Scalar.random.run s).1) =
        (Bytes.uniform 64).map Residue.ofBytes := by
      rw [← hμ, PMF.map_comp]
      rfl
    rw [hbytes]
    exact Residue.distance_lt (k := 250) (Residue.ncard_ofBytes 64) (by decide)
  · exact Residue.distance_lt (k := 128) FieldHash.ncard_chunks (by decide)

/-- Uniform bytes with zeroes after them. -/
theorem reduction_scripted :
    let μ := (Bytes.uniform 64).map Source.scripted
    μ.map (fun s => s.next 64) = Bytes.uniform 64 ∧
      statisticalDistance (μ.map fun s => (Scalar.random.run s).1)
        (PMF.uniformOfFintype Scalar) < 2 ^ (-250 : ℤ) := by
  intro μ
  have hμ : μ.map (fun s => s.next 64) = Bytes.uniform 64 := by
    rw [PMF.map_comp, Bytes.uniform, PMF.map_comp]
    congr 1
    funext b
    have hnext := Source.next_scripted b.toList
    rwa [b.toList_length] at hnext
  obtain ⟨-, -, hscalar, -⟩ := reduction_nearly_uniform
  exact ⟨hμ, hscalar μ hμ⟩

end BlsBn254
