import Mathlib
import BlsBn254.Scheme.Verification

/-!
# Payloads are kept apart

The payloads of messages within namespaces differ if the namespaces or the messages do,
and a payload that is a message alone is that of a message within a namespace only if it
is spelled out: the number of bytes of the namespace, the namespace and the message
(`Payload.ofMessage_apart`).

A payload has no mark where one of its parts ends and the next begins. That the parts can
nevertheless be found is due to the form of the number in front, which says itself where it
ends (`Payload.IsLeb128`): no number begins with another (`Payload.IsLeb128.append_inj`).
-/

namespace BlsBn254

namespace Payload

/-! ## The number in front -/

/-- The byte string is the number in the LEB128 form: its digits to the base 128, lowest
    first and none in vain, one a byte, with the highest bit set in all bytes but the last. -/
structure IsLeb128 (n : ℕ) (v : Bytes) : Prop where
  /-- Without the highest bits, the bytes are the digits of the number; zero has one. -/
  digits : v.map (fun c => c.toNat % 128) = if n = 0 then [0] else Nat.digits 128 n
  /-- All bytes but the last have the highest bit set. -/
  continues : ∃ init last, v = init ++ [last] ∧ (∀ c ∈ init, 128 ≤ c.toNat) ∧ last.toNat < 128

theorem toNat_byte {n : ℕ} (hn : n < 256) : (UInt8.ofNat n).toNat = n :=
  UInt8.toNat_ofNat_of_lt' hn

/-- The number is written in this form. -/
theorem isLeb128_varint (n : ℕ) : IsLeb128 n (varint n) := by
  fun_induction varint n with
  | case1 n hn =>
    have hbyte := toNat_byte (n := n) (by omega)
    refine ⟨?_, [], UInt8.ofNat n, rfl, nofun, hbyte.trans_lt hn⟩
    rw [List.map_singleton, hbyte, Nat.mod_eq_of_lt hn]
    split_ifs with hzero
    · rw [hzero]
    · rw [Nat.digits_of_lt 128 n hzero hn]
  | case2 n hn ih =>
    have hbyte := toNat_byte (n := n % 128 + 128) (by omega)
    obtain ⟨hdigits, init, last, hv, hinit, hlast⟩ := ih
    refine ⟨?_, UInt8.ofNat (n % 128 + 128) :: init, last, by rw [hv, List.cons_append], ?_, hlast⟩
    · -- There are further digits, as the number is not below the base.
      rw [if_neg (by omega)] at hdigits ⊢
      rw [List.map_cons, hdigits, hbyte, Nat.add_mod_right, Nat.mod_mod,
        Nat.digits_eq_cons_digits_div (n := n) (by decide) (by omega)]
    · exact List.forall_mem_cons.2 ⟨by omega, hinit⟩

namespace IsLeb128

variable {m n : ℕ} {u v s t : Bytes}

/-- The number is the one that the digits write. -/
theorem ofDigits_eq (hv : IsLeb128 n v) :
    Nat.ofDigits 128 (v.map fun c => c.toNat % 128) = n := by
  rw [hv.digits]
  split_ifs with hzero
  · exact hzero.symm
  · exact Nat.ofDigits_digits 128 n

/-- The form goes on up to the first byte that has not the highest bit set. -/
theorem takeWhile_append (hv : IsLeb128 n v) (t : Bytes) :
    (v ++ t).takeWhile (fun c => 128 ≤ c.toNat) = v.dropLast := by
  obtain ⟨init, last, rfl, hinit, hlast⟩ := hv.continues
  have hstop : ¬128 ≤ last.toNat := not_le.2 hlast
  rw [List.dropLast_concat, List.append_assoc, List.takeWhile_append_of_pos (by simpa using hinit),
    List.singleton_append, List.takeWhile_cons_of_neg (by simpa using hstop), List.append_nil]

theorem length_eq (hv : IsLeb128 n v) : v.length = v.dropLast.length + 1 := by
  obtain ⟨init, last, rfl, -, -⟩ := hv.continues
  rw [List.dropLast_concat, List.length_append, List.length_singleton]

/-- A string begins with the form of one number at most. -/
theorem append_inj (hu : IsLeb128 m u) (hv : IsLeb128 n v) (h : u ++ s = v ++ t) :
    m = n ∧ s = t := by
  have hinit : u.dropLast = v.dropLast := by
    rw [← hu.takeWhile_append s, h, hv.takeWhile_append t]
  obtain ⟨rfl, hrest⟩ := List.append_inj h (by rw [hu.length_eq, hinit, hv.length_eq])
  exact ⟨hu.ofDigits_eq.symm.trans hv.ofDigits_eq, hrest⟩

end IsLeb128

/-! ## Parts of a payload -/

/-- The namespace and the message can be found in the payload. -/
theorem within_inj {ns₁ m₁ ns₂ m₂ : Bytes} (h : within ns₁ m₁ = within ns₂ m₂) :
    ns₁ = ns₂ ∧ m₁ = m₂ := by
  rw [within, within, List.append_assoc, List.append_assoc] at h
  obtain ⟨hlen, hrest⟩ := (isLeb128_varint _).append_inj (isLeb128_varint _) h
  exact List.append_inj hrest hlen

/-- The payload within a namespace is longer than the message. -/
theorem length_lt_length_within (ns message : Bytes) :
    message.length < (within ns message).length := by
  rw [within, List.length_append, List.length_append, (isLeb128_varint _).length_eq]
  omega

/-- Payloads are equal if namespace and message are, or if one of them is a message alone
    that spells out the other. -/
theorem ofMessage_eq_iff {ns₁ ns₂ : Option Bytes} {m₁ m₂ : Bytes} :
    ofMessage ns₁ m₁ = ofMessage ns₂ m₂ ↔
      (ns₁, m₁) = (ns₂, m₂) ∨
        (∃ ns, ns₁ = none ∧ ns₂ = some ns ∧ m₁ = within ns m₂) ∨
          ∃ ns, ns₁ = some ns ∧ ns₂ = none ∧ m₂ = within ns m₁ := by
  cases ns₁ with
  | none =>
    cases ns₂ with
    | none => simp [ofMessage]
    | some ns₂ => simp [ofMessage]
  | some ns₁ =>
    cases ns₂ with
    | none => simp [ofMessage, eq_comm]
    | some ns₂ =>
      simp only [ofMessage, Prod.mk.injEq, Option.some.injEq]
      constructor
      · intro h
        exact .inl (within_inj h)
      · rintro (⟨rfl, rfl⟩ | ⟨_, h, _⟩ | ⟨_, _, h, _⟩)
        · rfl
        · cases h
        · cases h

/-- What is signed and verified for a message is its payload: the message alone, or the
    number of bytes of its namespace, the namespace and the message. Two payloads are equal
    if and only if namespace and message are, or one of them is a message alone that spells
    out the payload of the other. So different messages, or messages within different
    namespaces, have different payloads; and within the empty namespace a message has not
    the payload that it has alone. -/
theorem ofMessage_apart :
    (∀ (k : Scalar) (ns : Option Bytes) (message : Bytes),
        Scheme.signMessage k ns message = Scheme.sign k Tag.message (ofMessage ns message)) ∧
      (∀ {T : Type} [One T] [DecidableEq T] (pairing : PairingProduct T) (Q : G2)
        (ns : Option Bytes) (message : Bytes) (S : G1),
        Scheme.verifyMessage pairing Q ns message S =
          Scheme.verify pairing Q Tag.message (ofMessage ns message) S) ∧
      (∀ message, ofMessage none message = message) ∧
      (∀ ns message, ofMessage (some ns) message = within ns message ∧
        ∃ v, IsLeb128 ns.length v ∧ within ns message = v ++ ns ++ message) ∧
      (∀ (ns₁ ns₂ : Option Bytes) (m₁ m₂ : Bytes), ofMessage ns₁ m₁ = ofMessage ns₂ m₂ ↔
        (ns₁, m₁) = (ns₂, m₂) ∨
          (∃ ns, ns₁ = none ∧ ns₂ = some ns ∧ m₁ = within ns m₂) ∨
            ∃ ns, ns₁ = some ns ∧ ns₂ = none ∧ m₂ = within ns m₁) ∧
      (Function.Injective fun x : Bytes × Bytes => ofMessage (some x.1) x.2) ∧
      ∀ message, ofMessage (some []) message ≠ ofMessage none message := by
  refine ⟨fun _ _ _ => rfl, fun _ _ _ _ _ => rfl, fun _ => rfl, fun ns message => ?_,
    fun _ _ _ _ => ofMessage_eq_iff, fun x y h => ?_, fun message h => ?_⟩
  · exact ⟨rfl, varint ns.length, isLeb128_varint _, rfl⟩
  · obtain ⟨hns, hmessage⟩ := within_inj h
    exact Prod.ext hns hmessage
  · exact (length_lt_length_within [] message).ne' (congrArg List.length h)

end Payload

end BlsBn254
