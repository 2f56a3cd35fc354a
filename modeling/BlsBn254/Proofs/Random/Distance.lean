import BlsBn254.Bytes.Numbers

/-!
# Distance from uniform

How far a random value is from a uniform one is measured by the statistical distance of
their distributions (`statisticalDistance`). A function of a uniform value takes each value
with the share of the arguments that it takes there (`map_uniformOfFintype_apply`). If these
shares are as equal as they can be, in that the counts of the arguments differ by one at
most, then the distance from uniform is at most half the number of values over that of
arguments (`statisticalDistance_map_uniformOfFintype_le`).

The arguments here are uniform byte strings of a fixed length (`Bytes.uniform`).
-/

namespace BlsBn254

/-- The statistical distance of two distributions: half the sum of the differences of the
    probabilities. -/
noncomputable def statisticalDistance {α : Type} [Fintype α] (μ ν : PMF α) : ℝ :=
  (∑ a, |(μ a).toReal - (ν a).toReal|) / (2 : ℕ)

section Fintype

variable {α β : Type} [Fintype α] [Nonempty α]

/-- A function of a uniform argument takes a value with the share of the arguments where it
    takes it. -/
theorem map_uniformOfFintype_apply (f : α → β) (b : β) :
    ((PMF.uniformOfFintype α).map f b).toReal = {a | f a = b}.ncard / Fintype.card α := by
  classical
  have hpreimage : Set.preimage f {b} = {a | f a = b} := rfl
  rw [← PMF.toOuterMeasure_apply_singleton, PMF.toOuterMeasure_map_apply, hpreimage,
    PMF.toOuterMeasure_uniformOfFintype_apply, Set.fintypeCard_eq_ncard, ENNReal.toReal_div,
    ENNReal.toReal_natCast, ENNReal.toReal_natCast]

/-- A quotient differs by at most one from its integer part, and from the integer after. -/
theorem abs_sub_div_le_one {m n c : ℕ} (hc : c = n / m ∨ c = n / m + 1) :
    |(c : ℝ) - n / m| ≤ 1 := by
  have hlow : ((n / m : ℕ) : ℝ) ≤ n / m := Nat.cast_div_le
  have hhigh : (n / m : ℝ) < (n / m : ℕ) + 1 := by
    rw [← Nat.floor_div_eq_div (K := ℝ)]
    exact Nat.lt_floor_add_one _
  rw [abs_le]
  rcases hc with rfl | rfl
  · constructor <;> linarith
  · rw [Nat.cast_add_one]
    constructor <;> linarith

variable [Fintype β] [Nonempty β]

/-- A function that takes every value for the same number of arguments, or for one more, is
    close to uniform. -/
theorem statisticalDistance_map_uniformOfFintype_le {f : α → β}
    (hf : ∀ b, {a | f a = b}.ncard = Fintype.card α / Fintype.card β ∨
      {a | f a = b}.ncard = Fintype.card α / Fintype.card β + 1) :
    statisticalDistance ((PMF.uniformOfFintype α).map f) (PMF.uniformOfFintype β) ≤
      Fintype.card β / Fintype.card α / 2 := by
  have hα : (0 : ℝ) < Fintype.card α := by exact_mod_cast Fintype.card_pos
  have hterm : ∀ b, |((PMF.uniformOfFintype α).map f b).toReal -
      (PMF.uniformOfFintype β b).toReal| ≤ 1 / Fintype.card α := by
    intro b
    have hscale : ({a | f a = b}.ncard : ℝ) / Fintype.card α - (Fintype.card β : ℝ)⁻¹ =
        ({a | f a = b}.ncard - Fintype.card α / Fintype.card β) / Fintype.card α := by
      field_simp
    rw [map_uniformOfFintype_apply, PMF.uniformOfFintype_apply, ENNReal.toReal_inv,
      ENNReal.toReal_natCast, hscale, abs_div, abs_of_pos hα]
    exact div_le_div_of_nonneg_right (abs_sub_div_le_one (hf b)) hα.le
  have hsum := Finset.sum_le_card_nsmul Finset.univ _ _ fun b _ => hterm b
  rw [nsmul_eq_mul, mul_one_div, Finset.card_univ] at hsum
  rw [statisticalDistance, Nat.cast_ofNat]
  exact div_le_div_of_nonneg_right hsum two_pos.le

end Fintype

namespace Bytes

/-- The uniform byte string of length `n`. -/
noncomputable def uniform (n : ℕ) : PMF Bytes :=
  (PMF.uniformOfFintype (List.Vector UInt8 n)).map List.Vector.toList

theorem card_vector_byte (n : ℕ) : Fintype.card (List.Vector UInt8 n) = 256 ^ n := by
  have hbyte : Fintype.card UInt8 = 256 :=
    (Fintype.card_congr ⟨UInt8.toFin, UInt8.ofFin, fun _ => rfl, fun _ => rfl⟩).trans
      (Fintype.card_fin 256)
  rw [card_vector, hbyte]

/-- A function that takes every value for the same number of byte strings, or for one more,
    is close to uniform. -/
theorem statisticalDistance_map_uniform_le {β : Type} [Fintype β] [Nonempty β] {n : ℕ}
    {f : Bytes → β}
    (hf : ∀ v, {b | b.length = n ∧ f b = v}.ncard = 256 ^ n / Fintype.card β ∨
      {b | b.length = n ∧ f b = v}.ncard = 256 ^ n / Fintype.card β + 1) :
    statisticalDistance ((uniform n).map f) (PMF.uniformOfFintype β) ≤
      Fintype.card β / 256 ^ n / 2 := by
  have hcount : ∀ v, {b : List.Vector UInt8 n | (f ∘ List.Vector.toList) b = v}.ncard =
      {b | b.length = n ∧ f b = v}.ncard := by
    intro v
    rw [← Set.ncard_image_of_injective _ List.Vector.toList_injective]
    congr 1
    ext b
    constructor
    · rintro ⟨c, hc, rfl⟩
      exact ⟨c.toList_length, hc⟩
    · rintro ⟨hlen, hb⟩
      exact ⟨⟨b, hlen⟩, hb, rfl⟩
  have h := statisticalDistance_map_uniformOfFintype_le (f := f ∘ List.Vector.toList) fun v => by
    rw [hcount, card_vector_byte]
    exact hf v
  rw [card_vector_byte, Nat.cast_pow, Nat.cast_ofNat, ← PMF.map_comp] at h
  exact h

end Bytes

end BlsBn254
