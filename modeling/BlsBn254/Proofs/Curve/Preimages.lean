import BlsBn254.Proofs.Curve.Encoding

/-!
# The elements of a point

No point of the curve is the image of many elements of the field. The fractions of the
encoding depend on the square `u` of the element alone. The first of them is a quotient of
linear functions of `u` and takes every value once at most (`injOn_linearFraction`), and so
does the second, which is minus one less the first. The third takes every value twice at most,
at `u` and at `16 / u` (`encard_quadraticFraction_le`). So at most four squares belong to a
first coordinate (`encard_fractionPreimages_le`).

The second coordinate tells the two roots of such a square apart, of which it is a square
along with one and not with the other (`CurveMap.injOn_sq`). So a point is the image of at
most four elements (`CurveMap.encard_preimages_le`).
-/

namespace BlsBn254

/-! ## The values of fractions -/

section Field

variable {F : Type} [Field F]

/-- A quotient of linear functions. -/
def linearFraction (a s d u : F) : F := a - s * u / (u + d)

/-- A quotient of a quadratic function by a linear one. -/
def quadraticFraction (c d u : F) : F := 1 - (u + d) ^ 2 / (c * u)

/-- A quotient of linear functions that is not constant takes no value twice. -/
theorem injOn_linearFraction {a s d : F} (hs : s ≠ 0) (hd : d ≠ 0) :
    Set.InjOn (linearFraction a s d) {u | u + d ≠ 0} := by
  intro u hu v hv h
  have hquot : s * u / (u + d) = s * v / (v + d) := sub_right_injective h
  rw [div_eq_div_iff hu hv] at hquot
  have hprod : s * d * u = s * d * v := by linear_combination hquot
  exact mul_left_cancel₀ (mul_ne_zero hs hd) hprod

/-- So it takes a value once at most. -/
theorem encard_linearFraction_le {s d : F} (hs : s ≠ 0) (hd : d ≠ 0) (a x : F) :
    {u | u + d ≠ 0 ∧ linearFraction a s d u = x}.encard ≤ 1 :=
  Set.encard_le_one_iff.2 fun _ _ hu hv =>
    injOn_linearFraction hs hd hu.1 hv.1 (hu.2.trans hv.2.symm)

/-- A quadratic fraction takes the value that it has at `u` at `d² / u` too, and at no other
    place. -/
theorem quadraticFraction_eq_iff {c d u v : F} (hc : c ≠ 0) (hu : u ≠ 0) (hv : v ≠ 0) :
    quadraticFraction c d v = quadraticFraction c d u ↔ v = u ∨ v = d ^ 2 / u := by
  rw [quadraticFraction, quadraticFraction, sub_right_inj,
    div_eq_div_iff (mul_ne_zero hc hv) (mul_ne_zero hc hu), eq_div_iff hu, ← sub_eq_zero,
    ← sub_eq_zero (a := v), ← sub_eq_zero (a := v * u), ← mul_eq_zero]
  have hfactor : (v + d) ^ 2 * (c * u) - (u + d) ^ 2 * (c * v) =
      c * ((v - u) * (v * u - d ^ 2)) := by ring
  rw [hfactor, mul_eq_zero, or_iff_right hc]

/-- A quadratic fraction takes no value three times. -/
theorem encard_quadraticFraction_le {c : F} (hc : c ≠ 0) (d x : F) :
    {u | u ≠ 0 ∧ quadraticFraction c d u = x}.encard ≤ 2 := by
  rcases Set.eq_empty_or_nonempty {u | u ≠ 0 ∧ quadraticFraction c d u = x} with
    hempty | ⟨u, hu, hux⟩
  · rw [hempty, Set.encard_empty]
    exact zero_le
  · have hsubset : {v | v ≠ 0 ∧ quadraticFraction c d v = x} ⊆ {u, d ^ 2 / u} := fun v hv =>
      (quadraticFraction_eq_iff hc hu hv.1).1 (hv.2.trans hux.symm)
    calc {v | v ≠ 0 ∧ quadraticFraction c d v = x}.encard
        ≤ ({u, d ^ 2 / u} : Set F).encard := Set.encard_le_encard hsubset
      _ ≤ ({d ^ 2 / u} : Set F).encard + 1 := Set.encard_insert_le _ _
      _ = 2 := by rw [Set.encard_singleton, one_add_one_eq_two]

/-- The places where a fraction has the value `x`. -/
def fractionPreimages (a s c d x : F) : Set F :=
  {u | u + d ≠ 0 ∧ linearFraction a s d u = x} ∪
    {u | u + d ≠ 0 ∧ -1 - linearFraction a s d u = x} ∪ {u | u ≠ 0 ∧ quadraticFraction c d u = x}

theorem encard_fractionPreimages_le {s c d : F} (hs : s ≠ 0) (hc : c ≠ 0) (hd : d ≠ 0) (a x : F) :
    (fractionPreimages a s c d x).encard ≤ 4 := by
  -- Where minus one less the first is `x`, the first is minus one less `x`.
  have hsecond : {u | u + d ≠ 0 ∧ -1 - linearFraction a s d u = x} =
      {u | u + d ≠ 0 ∧ linearFraction a s d u = -1 - x} :=
    Set.ext fun u => and_congr_right fun _ => by
      rw [sub_eq_iff_eq_add, eq_sub_iff_add_eq', eq_comm]
  calc (fractionPreimages a s c d x).encard
      ≤ 1 + 1 + 2 := by
        refine (Set.encard_union_le _ _).trans (add_le_add ?_ (encard_quadraticFraction_le hc d x))
        refine (Set.encard_union_le _ _).trans (add_le_add (encard_linearFraction_le hs hd a x) ?_)
        rw [hsecond]
        exact encard_linearFraction_le hs hd a (-1 - x)
    _ = 4 := by norm_num

end Field

namespace CurveMap

/-! ## The squares over a first coordinate -/

theorem isImage_toPoint (t : Fp) : IsImage rootMinusThree t (toPoint t) :=
  isImage_of_toPoint? (toPoint?_eq_some t)

theorem fractions_eq (t : Fp) :
    fractions rootMinusThree t =
      [linearFraction rootOfUnity rootMinusThree 4 (t ^ 2),
        -1 - linearFraction rootOfUnity rootMinusThree 4 (t ^ 2),
        if t = 0 then 1 else quadraticFraction 3 4 (t ^ 2)] := by
  rw [rootOfUnity_eq]
  rfl

/-- The first fraction lies under the curve at zero. -/
theorem isSquare_linearFraction_zero :
    IsSquare (linearFraction rootOfUnity rootMinusThree 4 (0 ^ 2) ^ 3 + 3) := by
  rw [linearFraction, zero_pow two_ne_zero, mul_zero, zero_div, sub_zero, ← ySquared_eq]
  exact ⟨2, by decide⟩

/-- The first coordinate is one of the fractions, and at zero not the last of them. -/
theorem fraction_eq_of_toPoint {t x y : Fp} (h : toPoint t = .affine x y) :
    linearFraction rootOfUnity rootMinusThree 4 (t ^ 2) = x ∨
      -1 - linearFraction rootOfUnity rootMinusThree 4 (t ^ 2) = x ∨
      t ≠ 0 ∧ quadraticFraction 3 4 (t ^ 2) = x := by
  obtain ⟨x', y', hx, -, -, hP⟩ := isImage_toPoint t
  obtain ⟨rfl, -⟩ := Point.affine.inj (h.symm.trans hP)
  rw [fractions_eq] at hx
  rcases eq_or_ne t 0 with rfl | ht
  · rw [List.find?_cons_of_pos
      (by simpa only [decide_eq_true_eq] using isSquare_linearFraction_zero)] at hx
    exact .inl (Option.some.inj hx)
  · rw [if_neg ht] at hx
    have hmem := List.mem_of_find?_eq_some hx
    rw [List.mem_cons, List.mem_cons, List.mem_singleton] at hmem
    exact hmem.imp Eq.symm (Or.imp Eq.symm fun hthird => ⟨ht, hthird.symm⟩)

/-- The squares of the elements of a point are among those where a fraction has the value of
    the first coordinate. -/
theorem mapsTo_sq (x y : Fp) :
    Set.MapsTo (fun t : Fp => t ^ 2) {t | toPoint t = .affine x y}
      (fractionPreimages rootOfUnity rootMinusThree 3 4 x) := by
  intro t ht
  have hd : t ^ 2 + 4 ≠ 0 := by
    rw [pow_two]
    exact mul_self_add_four_ne_zero t
  rcases fraction_eq_of_toPoint ht with h₁ | h₂ | ⟨hne, h₃⟩
  · exact .inl (.inl ⟨hd, h₁⟩)
  · exact .inl (.inr ⟨hd, h₂⟩)
  · exact .inr ⟨pow_ne_zero 2 hne, h₃⟩

/-! ## The elements -/

/-- The elements of a point have different squares. -/
theorem injOn_sq (P : G1) : Set.InjOn (fun t : Fp => t ^ 2) {t | toPoint t = P} := by
  intro t ht t' ht' h
  obtain ⟨x, y, -, -, hsq, hP⟩ := isImage_toPoint t
  obtain ⟨x', y', -, -, hsq', hP'⟩ := isImage_toPoint t'
  obtain ⟨-, rfl⟩ := Point.affine.inj (hP.symm.trans ((ht.trans ht'.symm).trans hP'))
  exact Fp.eq_of_sq_eq h (hsq.symm.trans hsq')

theorem toPoint_ne_infinity (t : Fp) : toPoint t ≠ .infinity := by
  obtain ⟨x, y, -, -, -, hP⟩ := isImage_toPoint t
  rw [hP]
  simp

/-- A point is the image of at most four elements. -/
theorem encard_preimages_le (P : G1) : {t | toPoint t = P}.encard ≤ 4 := by
  cases P with
  | infinity =>
    have hempty : {t | toPoint t = .infinity} = ∅ :=
      Set.eq_empty_of_forall_notMem toPoint_ne_infinity
    rw [hempty, Set.encard_empty]
    exact zero_le
  | affine x y =>
    calc {t | toPoint t = .affine x y}.encard
        ≤ (fractionPreimages rootOfUnity rootMinusThree 3 4 x).encard :=
          Set.encard_le_encard_of_injOn (mapsTo_sq x y) (injOn_sq _)
      _ ≤ 4 := encard_fractionPreimages_le rootMinusThree_ne_zero (by decide) (by decide) _ _

end CurveMap

end BlsBn254
