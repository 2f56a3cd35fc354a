import BlsBn254.Bytes.Numbers
import BlsBn254.Proofs.Curve.Map

/-!
# Encodings are canonical

A format is *canonical* for a set of values if it reads those values alone, and each
from a single byte string, the one it writes for the value (`Format.IsCanonical`).
The encodings of scalars are canonical for all scalars, and those of points for the
points of the group (`canonical_scalar`, `canonical_point₁`, `canonical_point₂`).

Scalars and coordinates have a canonical encoding because the moduli are numbers of
no more bytes than the encoding has. A point has only one because zeroes, which are
read as the point at infinity, would otherwise be the coordinates of a point that is
on neither of the two curves.
-/

namespace BlsBn254

/-- A computation in steps succeeds if each of its steps does. -/
theorem bind_eq_ok_iff {ε α β : Type} {x : Except ε α} {f : α → Except ε β} {b : β} :
    x >>= f = .ok b ↔ ∃ a, x = .ok a ∧ f a = .ok b := by
  cases x with
  | error e => exact ⟨nofun, fun ⟨_, h, _⟩ => nomatch h⟩
  | ok a => exact ⟨fun h => ⟨a, rfl, h⟩, fun ⟨_, ha, h⟩ => Except.ok.inj ha ▸ h⟩

/-- What is made of the value of a computation comes from a value, -/
theorem map_eq_ok_iff {ε α β : Type} {x : Except ε α} {f : α → β} {b : β} :
    x.map f = .ok b ↔ ∃ a, x = .ok a ∧ f a = b := by
  cases x with
  | error e => exact ⟨nofun, fun ⟨_, h, _⟩ => nomatch h⟩
  | ok a =>
    exact ⟨fun h => ⟨a, rfl, Except.ok.inj h⟩,
      fun ⟨_, ha, h⟩ => congrArg _ (Except.ok.inj ha ▸ h)⟩

/-- and it fails for the cause for which the computation does. -/
theorem map_eq_error_iff {ε α β : Type} {x : Except ε α} {f : α → β} {e : ε} :
    x.map f = .error e ↔ x = .error e := by
  cases x with
  | error e' =>
    exact ⟨fun h => congrArg _ (Except.error.inj h), fun h => congrArg _ (Except.error.inj h)⟩
  | ok a => exact ⟨nofun, nofun⟩

/-! ## Canonical formats -/

/-- Bytes as a whole are read if they have the right length and are parsed. -/
theorem Format.ofBytes_eq_ok_iff {α : Type} {f : Format α} {b : Bytes} {a : α} :
    f.ofBytes b = .ok a ↔ b.length = f.size ∧ f.parse b = .ok a := by
  rw [ofBytes]
  by_cases hb : b.length = f.size
  · rw [if_pos hb, and_iff_right hb]
  · rw [if_neg hb]
    simp [hb]

/-- The format reads the valid values alone, each from its encoding. -/
structure Format.IsCanonical {α : Type} (f : Format α) (Valid : α → Prop) : Prop where
  /-- Every encoding has the length of the format. -/
  length_encode : ∀ a, (f.encode a).length = f.size
  /-- What is read is valid, and was encoded. -/
  parse_eq_ok_iff : ∀ {b : Bytes} {a : α}, b.length = f.size →
    (f.parse b = .ok a ↔ Valid a ∧ b = f.encode a)

namespace Format.IsCanonical

variable {α : Type} {f : Format α} {Valid : α → Prop}

/-- The byte strings that are read are the encodings of the valid values. -/
theorem ofBytes_eq_ok_iff (h : f.IsCanonical Valid) {b : Bytes} {a : α} :
    f.ofBytes b = .ok a ↔ Valid a ∧ b = f.encode a := by
  rw [Format.ofBytes_eq_ok_iff]
  constructor
  · rintro ⟨hb, hparse⟩
    exact (h.parse_eq_ok_iff hb).1 hparse
  · rintro ⟨ha, rfl⟩
    have hb := h.length_encode a
    exact ⟨hb, (h.parse_eq_ok_iff hb).2 ⟨ha, rfl⟩⟩

/-- Valid values with the same encoding agree. -/
theorem encode_injOn (h : f.IsCanonical Valid) {a b : α} (ha : Valid a) (hb : Valid b)
    (hab : f.encode a = f.encode b) : a = b := by
  have hread : f.ofBytes (f.encode a) = .ok a := h.ofBytes_eq_ok_iff.2 ⟨ha, rfl⟩
  rw [hab, h.ofBytes_eq_ok_iff.2 ⟨hb, rfl⟩] at hread
  exact (Except.ok.inj hread).symm

end Format.IsCanonical

/-! ## Byte strings -/

namespace Bytes

theorem isZero_iff {b : Bytes} : b.isZero = true ↔ b = zeros b.length := by
  rw [isZero, zeros, List.all_eq_true, List.eq_replicate_length]
  simp only [beq_iff_eq]

/-- A string in two parts, the first of a known length. -/
theorem eq_append_iff {b c d : Bytes} {n : ℕ} (hc : c.length = n) :
    b = c ++ d ↔ b.take n = c ∧ b.drop n = d := by
  constructor
  · rintro rfl
    exact ⟨List.take_left' hc, List.drop_left' hc⟩
  · rintro ⟨rfl, rfl⟩
    exact (List.take_append_drop n b).symm

end Bytes

/-! ## Residues -/

namespace Residue

instance : Fact (p ≤ 256 ^ encodedLength) := ⟨by decide⟩

instance : Fact (r ≤ 256 ^ encodedLength) := ⟨by decide⟩

variable {m : ℕ} [hm : Fact (m ≤ 256 ^ encodedLength)]

/-- The encoding writes the least representative. -/
theorem toNat_encode (a : Residue m) : a.encode.toNat = a.val :=
  Bytes.toNat_ofNat (a.isLt.trans_le hm.out)

theorem encode_injective : Function.Injective (encode : Residue m → Bytes) := fun a b h => by
  apply Residue.ext
  rw [← toNat_encode a, h, toNat_encode]

/-- A residue is read from its encoding alone. -/
theorem decode_eq_some_iff {b : Bytes} (hb : b.length = encodedLength) {a : Residue m} :
    decode b = some a ↔ b = a.encode := by
  constructor
  · intro h
    obtain ⟨hlt, rfl⟩ : ∃ hlt : b.toNat < m, ⟨b.toNat, hlt⟩ = a := by
      rw [decode] at h
      split at h
      · exact ⟨_, Option.some.inj h⟩
      · cases h
    rw [encode, ← hb, Bytes.ofNat_toNat]
  · rintro rfl
    have hlt : a.encode.toNat < m := (toNat_encode a).symm ▸ a.isLt
    exact (dif_pos hlt).trans (congrArg some (Residue.ext (toNat_encode a)))

theorem parse_eq_ok_iff {b : Bytes} (hb : b.length = encodedLength) {a : Residue m} :
    parse b = .ok a ↔ b = a.encode := by
  rw [← decode_eq_some_iff hb, parse]
  cases decode b with
  | none => exact ⟨nofun, nofun⟩
  | some c =>
    constructor
    · intro h
      rw [Except.ok.inj h]
    · intro h
      rw [Option.some.inj h]

omit hm in
theorem encode_zero [Modulus m] : (0 : Residue m).encode = Bytes.zeros encodedLength := by
  rw [encode, val_zero]
  decide

end Residue

/-- The encodings of scalars are canonical. -/
theorem canonical_scalar : (format : Format Scalar).IsCanonical fun _ => True where
  length_encode := Residue.length_encode
  parse_eq_ok_iff hb := by
    rw [true_and]
    exact Residue.parse_eq_ok_iff hb

/-! ## Points -/

namespace G1

/-- The points of the group have encodings other than zeroes, apart from infinity. -/
theorem encode_eq_zeros_iff {P : G1} (hP : P.IsValid) :
    P.encode = Bytes.zeros encodedLength ↔ P = .infinity := by
  constructor
  · intro h
    cases P with
    | infinity => rfl
    | affine x y =>
      obtain ⟨hx, hy⟩ := (Bytes.eq_append_iff (Residue.length_encode x)).1 h.symm
      -- Both coordinates would be zero, but that is no point of the curve.
      obtain rfl : 0 = x := Residue.encode_injective (Residue.encode_zero.trans hx)
      obtain rfl : 0 = y := Residue.encode_injective (Residue.encode_zero.trans hy)
      exact absurd hP (by decide)
  · rintro rfl
    rfl

/-- A point is read from its encoding alone, if it is one of the group. -/
theorem parse_eq_ok_iff {b : Bytes} (hb : b.length = encodedLength) {P : G1} :
    parse b = .ok P ↔ P.IsValid ∧ b = P.encode := by
  by_cases hz : b.isZero = true
  · have hzero : b = Bytes.zeros encodedLength := hb ▸ Bytes.isZero_iff.1 hz
    rw [parse, if_pos hz]
    constructor
    · intro h
      obtain rfl := Except.ok.inj h
      exact ⟨isValid_zero, hzero⟩
    · rintro ⟨hP, rfl⟩
      rw [(encode_eq_zeros_iff hP).1 hzero]
  · have hx : (b.take Residue.encodedLength).length = Residue.encodedLength := by
      rw [List.length_take, hb]
      rfl
    have hy : (b.drop Residue.encodedLength).length = Residue.encodedLength := by
      rw [List.length_drop, hb]
      rfl
    rw [parse, if_neg hz]
    simp only [bind_eq_ok_iff, Residue.parse_eq_ok_iff hx, Residue.parse_eq_ok_iff hy]
    constructor
    · rintro ⟨x, hbx, y, hby, h⟩
      split at h
      · rename_i hon
        obtain rfl := Except.ok.inj h
        exact ⟨hon, (Bytes.eq_append_iff (Residue.length_encode x)).2 ⟨hbx, hby⟩⟩
      · cases h
    · rintro ⟨hP, hbP⟩
      cases P with
      | infinity => exact absurd (Bytes.isZero_iff.2 (hb ▸ hbP)) hz
      | affine x y =>
        obtain ⟨hbx, hby⟩ := (Bytes.eq_append_iff (Residue.length_encode x)).1 hbP
        exact ⟨x, hbx, y, hby, if_pos hP⟩

end G1

/-- The encodings of points of `G1` are canonical for those of the curve. -/
theorem canonical_point₁ : (format : Format G1).IsCanonical G1.IsValid where
  length_encode := G1.length_encode
  parse_eq_ok_iff hb := G1.parse_eq_ok_iff hb

namespace G2

theorem length_word {b : Bytes} (hb : b.length = encodedLength) {i : ℕ} (hi : i < 4) :
    (word b i).length = Residue.encodedLength := by
  rw [word, List.length_take, List.length_drop, hb, encodedLength, Residue.encodedLength]
  omega

/-- The coordinates of a point are the words of its encoding. -/
theorem eq_encode_iff {b : Bytes} (hb : b.length = encodedLength) {x y : Fp2} :
    b = encode (.affine x y) ↔
      word b 0 = x.im.encode ∧ word b 1 = x.re.encode ∧
        word b 2 = y.im.encode ∧ word b 3 = y.re.encode := by
  have hlast : b.drop (Residue.encodedLength * 3) = word b 3 := by
    rw [word, List.take_of_length_le]
    rw [List.length_drop, hb]
    decide
  rw [encode, List.append_assoc, List.append_assoc, Bytes.eq_append_iff (Residue.length_encode _),
    Bytes.eq_append_iff (Residue.length_encode _), Bytes.eq_append_iff (Residue.length_encode _),
    List.drop_drop, List.drop_drop, ← hlast]
  rfl

/-- The points of the group have encodings other than zeroes, apart from infinity. -/
theorem encode_eq_zeros_iff {P : G2} (hP : P.IsValid) :
    P.encode = Bytes.zeros encodedLength ↔ P = .infinity := by
  constructor
  · intro h
    cases P with
    | infinity => rfl
    | affine x y =>
      obtain ⟨h₀, h₁, h₂, h₃⟩ := (eq_encode_iff List.length_replicate).1 h.symm
      -- All coefficients would be zero, but that is no point of the twist.
      have hword : ∀ i, i < 4 →
          word (Bytes.zeros encodedLength) i = (0 : Fp).encode := by
        intro i hi
        rw [Residue.encode_zero]
        interval_cases i <;> decide
      have hx : x = 0 := Fp2.ext (Residue.encode_injective (h₁.symm.trans (hword 1 (by decide))))
        (Residue.encode_injective (h₀.symm.trans (hword 0 (by decide))))
      have hy : y = 0 := Fp2.ext (Residue.encode_injective (h₃.symm.trans (hword 3 (by decide))))
        (Residue.encode_injective (h₂.symm.trans (hword 2 (by decide))))
      rw [hx, hy] at hP
      exact absurd hP.1 (by decide +kernel)
  · rintro rfl
    rfl

/-- A point is read from its encoding alone, if it is one of the group. -/
theorem parse_eq_ok_iff {b : Bytes} (hb : b.length = encodedLength) {P : G2} :
    parse b = .ok P ↔ P.IsValid ∧ b = P.encode := by
  by_cases hz : b.isZero = true
  · have hzero : b = Bytes.zeros encodedLength := hb ▸ Bytes.isZero_iff.1 hz
    rw [parse, if_pos hz]
    constructor
    · intro h
      obtain rfl := Except.ok.inj h
      exact ⟨isValid_zero, hzero⟩
    · rintro ⟨hP, rfl⟩
      rw [(encode_eq_zeros_iff hP).1 hzero]
  · have hword : ∀ i, i < 4 → ∀ {a : Fp}, Residue.parse (word b i) = .ok a ↔ word b i = a.encode :=
      fun i hi => Residue.parse_eq_ok_iff (length_word hb hi)
    rw [parse, if_neg hz]
    simp only [bind_eq_ok_iff, hword 0 (by decide), hword 1 (by decide), hword 2 (by decide),
      hword 3 (by decide)]
    constructor
    · rintro ⟨x₁, h₀, x₀, h₁, y₁, h₂, y₀, h₃, h⟩
      split at h
      · cases h
      · split at h
        · cases h
        · rename_i hon hsub
          obtain rfl := Except.ok.inj h
          exact ⟨⟨not_not.1 hon, not_not.1 hsub⟩, (eq_encode_iff hb).2 ⟨h₀, h₁, h₂, h₃⟩⟩
    · rintro ⟨hP, hbP⟩
      cases P with
      | infinity => exact absurd (Bytes.isZero_iff.2 (hb ▸ hbP)) hz
      | affine x y =>
        obtain ⟨h₀, h₁, h₂, h₃⟩ := (eq_encode_iff hb).1 hbP
        exact ⟨x.im, h₀, x.re, h₁, y.im, h₂, y.re, h₃,
          (if_neg (not_not.2 hP.1)).trans (if_neg (not_not.2 hP.2))⟩

end G2

/-- The encodings of points of `G2` are canonical for those of the group. -/
theorem canonical_point₂ : (format : Format G2).IsCanonical G2.IsValid where
  length_encode := G2.length_encode
  parse_eq_ok_iff hb := G2.parse_eq_ok_iff hb

/-! ## Packed elements -/

namespace Packed

variable {E : Type} [Formatted E] {Valid : E → Prop}

/-- A packed element is read from the encoding of a valid element alone. -/
theorem deserialize_eq_ok_iff (h : (format : Format E).IsCanonical Valid) {b : Bytes}
    {k : Packed E} :
    deserialize b = .ok k ↔ ∃ e, Valid e ∧ b = (format : Format E).encode e ∧ k = of e := by
  rw [deserialize, map_eq_ok_iff]
  simp only [h.ofBytes_eq_ok_iff]
  constructor
  · rintro ⟨e, ⟨he, hb⟩, rfl⟩
    exact ⟨e, he, hb, rfl⟩
  · rintro ⟨e, he, hb, rfl⟩
    exact ⟨e, ⟨he, hb⟩, rfl⟩

end Packed

end BlsBn254
