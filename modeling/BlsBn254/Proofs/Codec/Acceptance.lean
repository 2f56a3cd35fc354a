import BlsBn254.Proofs.Codec.Canonical
import BlsBn254.Proofs.Curve.Coordinates
import BlsBn254.Proofs.Curve.OrderSubgroup

/-!
# Which byte strings are points

The bytes of a point are zeroes, for the point at infinity, or they are words that write
its coordinates. Reading looks first for words that are too large, then at the equation
of the curve and, for a point of the twist, last at the order (`verdict`). So the strings
that are read, and the reason of every refusal, are known from the numbers that the words
write (`G1.parse_eq`, `G2.parse_eq`); and reading and writing are inverse to each other
between these strings and the points, in whatever coordinates the points are given
(`G1.encode_bijOn_curve`, `G2.encode_bijOn_orderSubgroup`).
-/

namespace BlsBn254

/-- The number that the word of index `i` writes. -/
def coordinate (b : Bytes) (i : ℕ) : ℕ := Bytes.toNat (G2.word b i)

theorem coordinate_zeros (n i : ℕ) : coordinate (Bytes.zeros n) i = 0 := by
  rw [coordinate, G2.word, Bytes.zeros, List.drop_replicate, List.take_replicate]
  exact Bytes.toNat_zeros _

/-- A computation goes on with a word if the number that it writes is below the
    modulus. -/
theorem Residue.parse_bind {m : ℕ} [Modulus m] {α : Type} (b : Bytes)
    (f : Residue m → Except Error α) :
    parse b >>= f = if b.toNat < m then f (ofBytes b) else .error .nonCanonical := by
  rw [parse, decode]
  by_cases h : b.toNat < m
  · rw [dif_pos h, if_pos h]
    exact congrArg f (Residue.ext (Nat.mod_eq_of_lt h).symm)
  · rw [dif_neg h, if_neg h]
    rfl

/-! ## The checks of a point -/

/-- What bytes are read as if they are zeroes (`z`), or if the words are below the modulus
    (`w`) and write a point on the curve (`c`) that is taken to infinity by the order
    (`s`): infinity is `a`, and the point is `P`. -/
def verdict {α : Type} (z w c s : Prop) [Decidable z] [Decidable w] [Decidable c] [Decidable s]
    (a P : α) : Except Error α :=
  if z then .ok a
  else if w then
    if c then
      if s then .ok P else .error .notInSubgroup
    else .error .notOnCurve
  else .error .nonCanonical

section Verdict

variable {α : Type} {z w c s : Prop} [Decidable z] [Decidable w] [Decidable c] [Decidable s]
  {a P Q : α}

/-- All checks are passed, unless the bytes are zeroes, which fail one of them; -/
theorem verdict_eq_ok_iff (hzc : z → ¬c) :
    verdict z w c s a P = .ok Q ↔ (z ∧ Q = a) ∨ (w ∧ (c ∧ s) ∧ Q = P) := by
  rw [verdict]
  split_ifs with hz hw hc hs
  · simp [hz, hzc hz, eq_comm]
  · simp [hz, hw, hc, hs, eq_comm]
  · simp [hz, hs]
  · simp [hz, hc]
  · simp [hz, hw]

/-- or the words are refused, -/
theorem verdict_eq_nonCanonical_iff (hzw : z → w) :
    verdict z w c s a P = .error .nonCanonical ↔ ¬w := by
  rw [verdict]
  split_ifs with hz hw hc hs
  · simp [hzw hz]
  · simp [hw]
  · simp [hw]
  · simp [hw]
  · simp [hw]

/-- or the equation is, if the words are not, -/
theorem verdict_eq_notOnCurve_iff :
    verdict z w c s a P = .error .notOnCurve ↔ w ∧ ¬z ∧ ¬c := by
  rw [verdict]
  split_ifs with hz hw hc hs
  · simp [hz]
  · simp [hc]
  · simp [hc]
  · simp [hz, hw, hc]
  · simp [hw]

/-- or the order is, if nothing else is. -/
theorem verdict_eq_notInSubgroup_iff (hzc : z → ¬c) :
    verdict z w c s a P = .error .notInSubgroup ↔ w ∧ c ∧ ¬s := by
  rw [verdict]
  split_ifs with hz hw hc hs
  · simp [hzc hz]
  · simp [hs]
  · simp [hw, hc, hs]
  · simp [hc]
  · simp [hw]

/-- The length of the bytes is none of the reasons. -/
theorem verdict_ne_invalidLength {m n : ℕ} :
    verdict z w c s a P ≠ .error (.invalidLength m n) := by
  rw [verdict]
  split_ifs <;> simp

end Verdict

/-- The words of zeroes are below the modulus. -/
theorem coordinate_lt_of_zeros {b : Bytes} {n k : ℕ} (hb : b = Bytes.zeros n) :
    ∀ i : Fin k, coordinate b i < p := by
  intro i
  rw [hb, coordinate_zeros]
  exact Modulus.pos

theorem not_forall_coordinate_lt {b : Bytes} {k : ℕ} :
    (¬∀ i : Fin k, coordinate b i < p) ↔ ∃ i : Fin k, p ≤ coordinate b i := by
  simp only [not_forall, not_lt]

/-! ## Reading and writing -/

namespace Format.IsCanonical

variable {α : Type} {f : Format α} {Valid : α → Prop}

/-- Writing and reading are inverse to each other between the valid values and the
    strings that are read. -/
theorem bijOn_encode (h : f.IsCanonical Valid) :
    Set.BijOn f.encode {a | Valid a} {b | b.length = f.size ∧ ∃ a, f.parse b = .ok a} := by
  refine ⟨fun a ha => ?_, fun a ha a' ha' heq => h.encode_injOn ha ha' heq, fun b hb => ?_⟩
  · exact ⟨h.length_encode a, a, (h.parse_eq_ok_iff (h.length_encode a)).2 ⟨ha, rfl⟩⟩
  · obtain ⟨hlen, a, ha⟩ := hb
    obtain ⟨hvalid, rfl⟩ := (h.parse_eq_ok_iff hlen).1 ha
    exact ⟨a, hvalid, rfl⟩

/-- Whatever coordinates a valid point is written from, those of the same point are read
    back. -/
theorem exists_parse_toPoint {F : Type} [Field F] [DecidableEq F] {f : Format (Point F)}
    {Valid : Point F → Prop} (h : f.IsCanonical Valid) {J : Jacobian F} (hJ : Valid J.toPoint) :
    ∃ P, f.parse (f.encode J.toPoint) = .ok P ∧ (Jacobian.ofPoint P).SamePoint J := by
  refine ⟨J.toPoint, (h.parse_eq_ok_iff (h.length_encode _)).2 ⟨hJ, rfl⟩, ?_⟩
  rw [← Jacobian.toPoint_eq_toPoint_iff, Jacobian.toPoint_ofPoint]

end Format.IsCanonical

/-! ## The curve -/

namespace G1

/-- The point whose coordinates the words of a string write. -/
def pointOf (b : Bytes) : G1 := .affine (coordinate b 0 : Fp) (coordinate b 1 : Fp)

/-- The words write a point of the curve if its equation holds modulo `p`. -/
theorem onCurve_pointOf_iff {b : Bytes} : (pointOf b).OnCurve curveConstant ↔
    coordinate b 1 ^ 2 ≡ coordinate b 0 ^ 3 + 3 [MOD p] := by
  rw [← Residue.natCast_eq_natCast_iff, Nat.cast_pow, Nat.cast_add, Nat.cast_pow, pow_two,
    pow_succ, pow_two]
  rfl

/-- Zeroes are not the coordinates of a point of the curve. -/
theorem not_onCurve_pointOf_zeros :
    ¬(pointOf (Bytes.zeros encodedLength)).OnCurve curveConstant := by
  decide

/-- Reading goes through the checks of a point, with none of the order. -/
theorem parse_eq {b : Bytes} (hb : b.length = encodedLength) :
    parse b = verdict (b = Bytes.zeros encodedLength) (∀ i : Fin 2, coordinate b i < p)
      ((pointOf b).OnCurve curveConstant) True 0 (pointOf b) := by
  have hzero : b.isZero = true ↔ b = Bytes.zeros encodedLength := by
    rw [Bytes.isZero_iff, hb]
  have hall : (∀ i : Fin 2, coordinate b i < p) ↔ coordinate b 0 < p ∧ coordinate b 1 < p :=
    Fin.forall_fin_two
  have hlast : b.drop Residue.encodedLength = G2.word b 1 := by
    rw [G2.word, mul_one, List.take_of_length_le]
    rw [List.length_drop, hb]
    decide
  rw [parse, Residue.parse_bind, Residue.parse_bind, hlast, verdict, if_congr hall rfl rfl, ite_and,
    if_true]
  exact if_congr hzero rfl rfl

/-- Writing is a bijection from the points of the curve to the strings that are read.
    These are zeroes, for the point at infinity, and two words below `p` that satisfy the
    equation of the curve modulo `p`. Every other string is refused for its words if one
    is too large, and otherwise as no point of the curve. What is read is written as the
    string itself, and what is written is read back, from whatever coordinates of the
    point; only infinity is written as zeroes. -/
theorem encode_bijOn_curve :
    Set.BijOn encode {P | P.IsValid} {b | b.length = encodedLength ∧ ∃ P, parse b = .ok P} ∧
      (∀ b : Bytes, b.length = encodedLength →
        (∀ P, parse b = .ok P ↔ (b = Bytes.zeros encodedLength ∧ P = 0) ∨
          ((∀ i : Fin 2, coordinate b i < p) ∧
            coordinate b 1 ^ 2 ≡ coordinate b 0 ^ 3 + 3 [MOD p] ∧ P = pointOf b)) ∧
        (parse b = .error .nonCanonical ↔ ∃ i : Fin 2, p ≤ coordinate b i) ∧
        (parse b = .error .notOnCurve ↔ (∀ i : Fin 2, coordinate b i < p) ∧
          b ≠ Bytes.zeros encodedLength ∧
          ¬coordinate b 1 ^ 2 ≡ coordinate b 0 ^ 3 + 3 [MOD p]) ∧
        ∀ P, parse b = .ok P → P.encode = b) ∧
      (∀ J : Jacobian Fp, J.OnCurve curveConstant →
        ∃ P, parse (encode J.toPoint) = .ok P ∧ (Jacobian.ofPoint P).SamePoint J) ∧
      ∀ P : G1, P.IsValid → P ≠ 0 → P.encode ≠ Bytes.zeros encodedLength := by
  refine ⟨canonical_point₁.bijOn_encode, fun b hb => ⟨fun P => ?_, ?_, ?_, fun P hP => ?_⟩,
    fun J hJ => ?_, fun P hP hne => ?_⟩
  · rw [parse_eq hb, verdict_eq_ok_iff fun hz => hz ▸ not_onCurve_pointOf_zeros, and_true,
      onCurve_pointOf_iff]
  · rw [parse_eq hb, verdict_eq_nonCanonical_iff coordinate_lt_of_zeros, not_forall_coordinate_lt]
  · rw [parse_eq hb, verdict_eq_notOnCurve_iff, onCurve_pointOf_iff]
  · exact ((parse_eq_ok_iff hb).1 hP).2.symm
  · exact canonical_point₁.exists_parse_toPoint (Jacobian.onCurve_toPoint_iff.2 hJ)
  · exact mt (encode_eq_zeros_iff hP).1 hne

/-- The double of the generator is read back from coordinates of another scale. -/
theorem read_back_double_generator :
    let J : Jacobian Fp := Jacobian.double ⟨1, 2, 1⟩
    let b := encode J.toPoint
    J.OnCurve curveConstant ∧ b.length = encodedLength ∧
      (∃ P, parse b = .ok P ∧ (Jacobian.ofPoint P).SamePoint J ∧ P.encode = b) ∧
      IsValid generator ∧ generator ≠ 0 ∧ generator.encode ≠ Bytes.zeros encodedLength := by
  intro J b
  have hJ : J.OnCurve curveConstant := .inr (by decide +kernel)
  have hlen : b.length = encodedLength := length_encode _
  obtain ⟨P, hP, hsame⟩ := encode_bijOn_curve.2.2.1 J hJ
  have hgen : IsValid generator := by decide
  have hne : generator ≠ 0 := by decide
  exact ⟨hJ, hlen, ⟨P, hP, hsame, (encode_bijOn_curve.2.1 b hlen).2.2.2 P hP⟩, hgen, hne,
    encode_bijOn_curve.2.2.2 generator hgen hne⟩

end G1

/-! ## The twist -/

namespace G2

/-- The point whose coordinates the words of a string write, in both of them the
    coefficient of `u` first. -/
def pointOf (b : Bytes) : G2 :=
  .affine ⟨(coordinate b 1 : Fp), (coordinate b 0 : Fp)⟩
    ⟨(coordinate b 3 : Fp), (coordinate b 2 : Fp)⟩

/-- Zeroes are not the coordinates of a point of the twist. -/
theorem not_onCurve_pointOf_zeros :
    ¬(pointOf (Bytes.zeros encodedLength)).OnCurve twistConstant := by
  decide +kernel

/-- Reading goes through the checks of a point. -/
theorem parse_eq {b : Bytes} (hb : b.length = encodedLength) :
    parse b = verdict (b = Bytes.zeros encodedLength) (∀ i : Fin 4, coordinate b i < p)
      ((pointOf b).OnCurve twistConstant) (InSubgroup (pointOf b)) 0 (pointOf b) := by
  have hzero : b.isZero = true ↔ b = Bytes.zeros encodedLength := by
    rw [Bytes.isZero_iff, hb]
  have hall : (∀ i : Fin 4, coordinate b i < p) ↔
      coordinate b 0 < p ∧ coordinate b 1 < p ∧ coordinate b 2 < p ∧ coordinate b 3 < p := by
    simp [Fin.forall_fin_succ]
  rw [parse, Residue.parse_bind, Residue.parse_bind, Residue.parse_bind, Residue.parse_bind,
    verdict, if_congr hall rfl rfl, ite_and, ite_and, ite_and, ite_not, ite_not]
  exact if_congr hzero rfl rfl

/-- Writing is a bijection from the subgroup of order `r` of the twist, the only one of
    that order, to the strings that are read. These are zeroes, for the point at infinity,
    and four words below `p` that write the coordinates of a point of the subgroup. Every
    other string is refused for its words if one is too large, else as no point of the
    twist, else for its order. What is read is written as the string itself, and what is
    written is read back, from whatever coordinates of the point. -/
theorem encode_bijOn_orderSubgroup :
    (∀ H : AddSubgroup (PointOn twistConstant), Nat.card H = r ↔ H = orderSubgroup) ∧
      Set.BijOn encode {P | ∃ h : P.OnCurve twistConstant, ⟨P, h⟩ ∈ orderSubgroup}
        {b | b.length = encodedLength ∧ ∃ P, parse b = .ok P} ∧
      (∀ b : Bytes, b.length = encodedLength →
        (∀ P, parse b = .ok P ↔ (b = Bytes.zeros encodedLength ∧ P = 0) ∨
          ((∀ i : Fin 4, coordinate b i < p) ∧
            (∃ h : (pointOf b).OnCurve twistConstant, ⟨pointOf b, h⟩ ∈ orderSubgroup) ∧
            P = pointOf b)) ∧
        (parse b = .error .nonCanonical ↔ ∃ i : Fin 4, p ≤ coordinate b i) ∧
        (parse b = .error .notOnCurve ↔ (∀ i : Fin 4, coordinate b i < p) ∧
          b ≠ Bytes.zeros encodedLength ∧ ¬(pointOf b).OnCurve twistConstant) ∧
        (parse b = .error .notInSubgroup ↔ (∀ i : Fin 4, coordinate b i < p) ∧
          ∃ h : (pointOf b).OnCurve twistConstant, ⟨pointOf b, h⟩ ∉ orderSubgroup) ∧
        ∀ P, parse b = .ok P → P.encode = b) ∧
      ∀ J : Jacobian Fp2,
        (∃ h : J.toPoint.OnCurve twistConstant, ⟨J.toPoint, h⟩ ∈ orderSubgroup) →
        ∃ P, parse (encode J.toPoint) = .ok P ∧ (Jacobian.ofPoint P).SamePoint J := by
  -- To belong to the subgroup is to pass the check of the order.
  simp only [mem_orderSubgroup_iff, exists_prop]
  refine ⟨fun H => card_eq_order_iff, canonical_point₂.bijOn_encode,
    fun b hb => ⟨fun P => ?_, ?_, ?_, ?_, fun P hP => ?_⟩, fun J hJ => ?_⟩
  · rw [parse_eq hb, verdict_eq_ok_iff fun hz => hz ▸ not_onCurve_pointOf_zeros]
  · rw [parse_eq hb, verdict_eq_nonCanonical_iff coordinate_lt_of_zeros, not_forall_coordinate_lt]
  · rw [parse_eq hb, verdict_eq_notOnCurve_iff]
  · rw [parse_eq hb, verdict_eq_notInSubgroup_iff fun hz => hz ▸ not_onCurve_pointOf_zeros]
  · exact ((parse_eq_ok_iff hb).1 hP).2.symm
  · exact canonical_point₂.exists_parse_toPoint hJ

/-- The double of the generator is read back from coordinates of another scale, while a
    point of the twist outside the subgroup is refused for its order. -/
theorem refused_outsider :
    let J : Jacobian Fp2 := (Jacobian.ofPoint generator).double
    (∃ h : J.toPoint.OnCurve twistConstant, ⟨J.toPoint, h⟩ ∈ orderSubgroup) ∧
      (encode J.toPoint).length = encodedLength ∧
      (∃ P, parse (encode J.toPoint) = .ok P ∧ (Jacobian.ofPoint P).SamePoint J ∧
        P.encode = encode J.toPoint) ∧
      (encode outsider.point).length = encodedLength ∧
      parse (encode outsider.point) = .error .notInSubgroup := by
  intro J
  have hJ : ∃ h : J.toPoint.OnCurve twistConstant, ⟨J.toPoint, h⟩ ∈ orderSubgroup :=
    isValid_iff_mem.1 (by decide +kernel)
  have hlen : (encode J.toPoint).length = encodedLength := length_encode _
  obtain ⟨P, hP, hsame⟩ := encode_bijOn_orderSubgroup.2.2.2 J hJ
  have houtsider := encode_bijOn_orderSubgroup.2.2.1 (encode outsider.point) (length_encode _)
  refine ⟨hJ, hlen, ⟨P, hP, hsame, ?_⟩, length_encode _, houtsider.2.2.2.1.2 ⟨?_, ?_⟩⟩
  · exact (encode_bijOn_orderSubgroup.2.2.1 _ hlen).2.2.2.2 P hP
  · decide +kernel
  · exact ⟨by decide +kernel, mt mem_orderSubgroup_iff.1 (by decide +kernel)⟩

end G2

end BlsBn254
