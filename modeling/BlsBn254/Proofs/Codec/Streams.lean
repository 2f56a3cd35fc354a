import BlsBn254.Proofs.Codec.Canonical

/-!
# Values in streams and as a whole

What is read of a stream is a string of the right length that is parsed, and the rest is
left (`Format.read_eq_ok_iff`); so a stream that is read to its end is the same as a byte
string that is read as a whole (`Format.decode_eq_ok_iff`). A value whose encoding is
parsed is therefore read back from it in every way (`Format.ReadsBack`).

A stream is checked for its length, then for its head and last for what remains
(`Format.decode_eq`), a byte string as a whole first for its length; so each reason of a
refusal has a condition of its own.
-/

namespace BlsBn254.Format

variable {α : Type} {f : Format α} {b rest : Bytes} {a : α}

/-! ## What is read -/

/-- What is read of a stream is its head, -/
theorem read_eq_ok_iff :
    f.read b = .ok (a, rest) ↔ ∃ c, f.ofBytes c = .ok a ∧ b = c ++ rest := by
  constructor
  · intro h
    rw [read] at h
    split_ifs at h with hlen
    refine ⟨b.take f.size, ?_⟩
    cases hparse : f.parse (b.take f.size) with
    | error cause =>
      rw [hparse] at h
      cases h
    | ok a' =>
      rw [hparse] at h
      obtain ⟨rfl, rfl⟩ := Prod.mk.inj (Except.ok.inj h)
      exact ⟨ofBytes_eq_ok_iff.2 ⟨List.length_take_of_le (not_lt.1 hlen), hparse⟩,
        (List.take_append_drop _ b).symm⟩
  · rintro ⟨c, hc, rfl⟩
    obtain ⟨hlen, hparse⟩ := ofBytes_eq_ok_iff.1 hc
    exact read_append hlen rest hparse

/-- and a whole stream is read as the bytes that it consists of. -/
theorem decode_eq_ok_iff : f.decode b = .ok a ↔ f.ofBytes b = .ok a := by
  have hread : f.decode b = .ok a ↔ f.read b = .ok (a, []) := by
    rw [decode]
    rcases f.read b with e | ⟨a', _ | ⟨c, rest⟩⟩
    · simp
    · simp
    · simp
  rw [hread, read_eq_ok_iff]
  simp only [List.append_nil]
  constructor
  · rintro ⟨c, hc, rfl⟩
    exact hc
  · intro h
    exact ⟨b, h, rfl⟩

/-! ## What is refused -/

/-- A byte string of the right length is parsed. -/
theorem ofBytes_of_length (hb : b.length = f.size) : f.ofBytes b = f.parse b := if_pos hb

/-- Byte strings are refused for their length if it is not the right one, given that what is
    parsed is not. -/
theorem ofBytes_eq_invalidLength_iff {m n : ℕ}
    (hparse : b.length = f.size → f.parse b ≠ .error (.invalidLength m n)) :
    f.ofBytes b = .error (.invalidLength m n) ↔
      b.length ≠ f.size ∧ m = f.size ∧ n = b.length := by
  rw [ofBytes]
  split_ifs with hb
  · simp [hb, hparse hb]
  · simp [hb, eq_comm]

/-- A stream is checked for its length, then for its head, and last for what remains. -/
theorem decode_eq : f.decode b =
    if b.length < f.size then .error .endOfBuffer
    else match f.ofBytes (b.take f.size) with
      | .error cause => .error (.invalid f.label cause.reason)
      | .ok a =>
        if f.size < b.length then .error (.extraData (b.length - f.size)) else .ok a := by
  rw [decode, read]
  split_ifs with hshort hlong
  · rfl
  · have hrest : b.drop f.size ≠ [] := mt List.drop_eq_nil_iff.1 (not_le.2 hlong)
    obtain ⟨c, rest, hdrop⟩ := List.exists_cons_of_ne_nil hrest
    rw [← List.length_drop, hdrop, ofBytes_of_length (List.length_take_of_le (not_lt.1 hshort))]
    rcases f.parse (b.take f.size) with cause | a
    · rfl
    · rfl
  · rw [List.drop_eq_nil_iff.2 (not_lt.1 hlong),
      ofBytes_of_length (List.length_take_of_le (not_lt.1 hshort))]
    rcases f.parse (b.take f.size) with cause | a
    · rfl
    · rfl

/-- It is refused if it is too short, -/
theorem decode_eq_endOfBuffer_iff : f.decode b = .error .endOfBuffer ↔ b.length < f.size := by
  rw [decode_eq]
  rcases f.ofBytes (b.take f.size) with cause | a
  · split_ifs with hshort <;> simp [hshort]
  · split_ifs with hshort hlong <;> simp [hshort]

/-- or else if its head is, whatever comes after it, -/
theorem decode_eq_invalid_iff {label reason : String} :
    f.decode b = .error (.invalid label reason) ↔
      f.size ≤ b.length ∧ label = f.label ∧
        ∃ cause, f.ofBytes (b.take f.size) = .error cause ∧ reason = cause.reason := by
  rw [decode_eq]
  rcases f.ofBytes (b.take f.size) with cause | a
  · dsimp only
    split_ifs with hshort
    · simp [hshort]
    · simp [not_lt.1 hshort, eq_comm]
  · split_ifs <;> simp

/-- or else if it goes on after the head. -/
theorem decode_eq_extraData_iff {n : ℕ} :
    f.decode b = .error (.extraData n) ↔
      (∃ a, f.ofBytes (b.take f.size) = .ok a) ∧ f.size < b.length ∧
        n = b.length - f.size := by
  rw [decode_eq]
  rcases f.ofBytes (b.take f.size) with cause | a
  · split_ifs <;> simp
  · split_ifs with hshort hlong
    · simp [hshort.le]
    · simp [hlong, eq_comm]
    · simp [hlong]

/-! ## What is read back -/

variable (f a) in
/-- The value is read back from its encoding: as a whole, from a stream that consists of
    it, and from any stream that begins with it. -/
structure ReadsBack : Prop where
  /-- It is read back from its encoding as a whole. -/
  ofBytes : f.ofBytes (f.encode a) = .ok a
  /-- It is read back from a stream that consists of its encoding. -/
  decode : f.decode (f.encode a) = .ok a
  /-- It is read back from a stream that begins with its encoding, up to the rest. -/
  read : ∀ rest, f.read (f.encode a ++ rest) = .ok (a, rest)

/-- Bytes as a whole are enough. -/
theorem readsBack_iff : f.ReadsBack a ↔ f.ofBytes (f.encode a) = .ok a := by
  constructor
  · exact ReadsBack.ofBytes
  · intro h
    exact ⟨h, decode_eq_ok_iff.2 h, fun rest => read_eq_ok_iff.2 ⟨_, h, rfl⟩⟩

/-- Valid values are read back. -/
theorem IsCanonical.readsBack {Valid : α → Prop} (h : f.IsCanonical Valid) (ha : Valid a) :
    f.ReadsBack a := readsBack_iff.2 (h.ofBytes_eq_ok_iff.2 ⟨ha, rfl⟩)

end BlsBn254.Format
