import BlsBn254.Proofs.Field.Residue

/-!
# The orders of the fields are prime

A number `n` is prime if some residue has the order `n - 1` modulo `n`. To
verify that, it is enough to take its power `n - 1`, which must be one, and its
powers `(n - 1) / q` for the primes `q` that divide `n - 1`, which must not be
(Lucas). The primes `q` are verified in the same way, down to some for which
trial division is enough. A list of numbers with their bases and the factors of
their predecessors, where all large factors have come before, is a
*certificate* that all of them are prime (`Lucas.prime_of_certifies`). The
powers are those of the residues, by the binary method, so that a certificate is
verified by evaluation.
-/

namespace BlsBn254

namespace Lucas

/-- A number that is claimed to be prime. -/
structure Entry where
  /-- The number. -/
  number : ℕ
  /-- It is not zero. -/
  pos : 0 < number
  /-- A number whose residue has the order `number - 1`. -/
  base : ℕ
  /-- The primes that `number - 1` is a product of, with their multiplicities. -/
  factors : List (ℕ × ℕ)

instance (e : Entry) : Modulus e.number := ⟨e.pos⟩

/-- The test of an entry whose factors are taken from the numbers `known` to be
    prime. -/
def Entry.Passes (known : List ℕ) (e : Entry) : Prop :=
  (e.factors.map fun f => f.1 ^ f.2).prod = e.number - 1 ∧
    (e.base : Residue e.number) ^ (e.number - 1) = 1 ∧
    ∀ f ∈ e.factors, f.1 ∈ known ∧ (e.base : Residue e.number) ^ ((e.number - 1) / f.1) ≠ 1

instance (known : List ℕ) (e : Entry) : Decidable (e.Passes known) :=
  inferInstanceAs (Decidable (_ ∧ _ ∧ _))

/-- Every entry passes, with the numbers of the entries before it known. -/
def Certifies : (known : List ℕ) → List Entry → Prop
  | _, [] => True
  | known, e :: es => e.Passes known ∧ Certifies (e.number :: known) es

instance instDecidableCertifies :
    (known : List ℕ) → (es : List Entry) → Decidable (Certifies known es)
  | _, [] => .isTrue trivial
  | known, e :: es =>
    have := instDecidableCertifies (e.number :: known) es
    inferInstanceAs (Decidable (_ ∧ _))

/-- An entry that passes is prime. -/
theorem Entry.prime_of_passes {known : List ℕ} (hk : ∀ q ∈ known, q.Prime) {e : Entry}
    (he : e.Passes known) : e.number.Prime := by
  obtain ⟨hprod, hone, hne⟩ := he
  have hpow : ∀ k, (e.base : Residue e.number) ^ k = 1 ↔ (e.base : ZMod e.number) ^ k = 1 := by
    intro k
    rw [← Residue.toZMod_injective.eq_iff, Residue.toZMod_pow, Residue.toZMod_natCast,
      Residue.toZMod_one]
  refine lucas_primality e.number (e.base : ZMod e.number) ((hpow _).1 hone) fun q hq hdvd => ?_
  rw [← hprod] at hdvd
  obtain ⟨_, hmem, hqf⟩ := (Prime.dvd_prod_iff hq.prime).1 hdvd
  obtain ⟨f, hf, rfl⟩ := List.mem_map.1 hmem
  -- A prime that divides a power of a prime is that prime.
  have hqf : q = f.1 :=
    (Nat.prime_dvd_prime_iff_eq hq (hk _ (hne f hf).1)).1 (hq.dvd_of_dvd_pow hqf)
  exact hqf ▸ mt (hpow _).2 (hne f hf).2

/-- All numbers of a certificate are prime. -/
theorem prime_of_certifies {known : List ℕ} (hk : ∀ q ∈ known, q.Prime) {es : List Entry}
    (hes : Certifies known es) : ∀ e ∈ es, e.number.Prime := by
  induction es generalizing known with
  | nil => exact fun _ he => absurd he List.not_mem_nil
  | cons e es ih =>
    have hp := e.prime_of_passes hk hes.1
    intro e' he'
    rcases List.mem_cons.1 he' with rfl | he'
    · exact hp
    · -- The entries that follow may rely on this one.
      refine ih (fun q hq => ?_) hes.2 e' he'
      rcases List.mem_cons.1 hq with rfl | hq
      · exact hp
      · exact hk q hq

/-! ## The certificate -/

/-- The primes that are verified by trial division. -/
def smallPrimes : List ℕ :=
  [2, 3, 5, 7, 11, 13, 17, 19, 29, 37, 41, 67, 73, 83, 89, 107, 109, 229, 233, 271, 311, 379, 449,
    661, 823, 853, 911, 983, 1231, 1637, 3557, 3691, 4999, 11003, 13327, 41927, 93001]

theorem prime_of_mem_smallPrimes : ∀ q ∈ smallPrimes, q.Prime := by
  simp only [smallPrimes, List.forall_mem_cons, List.not_mem_nil, false_implies, implies_true]
  norm_num

/-- The orders of the two fields, and the large primes on the way to them. -/
def certificate : List Entry :=
  [⟨4562087, by decide, 5, [(2, 1), (17, 1), (109, 1), (1231, 1)]⟩,
    ⟨1853641, by decide, 17, [(2, 3), (3, 2), (5, 1), (19, 1), (271, 1)]⟩,
    ⟨1263766531, by decide, 10, [(2, 1), (3, 1), (5, 1), (13, 1), (911, 1), (3557, 1)]⟩,
    ⟨35385462869, by decide, 2, [(2, 2), (7, 1), (1263766531, 1)]⟩,
    ⟨2480874801745591, by decide, 6, [(2, 1), (3, 2), (5, 1), (19, 1), (41, 1),
      (35385462869, 1)]⟩,
    ⟨173171039, by decide, 13, [(2, 1), (73, 1), (89, 1), (13327, 1)]⟩,
    ⟨13427688667394608761327070753331941386769, by decide, 17, [(2, 4), (3, 1), (7, 1), (11, 1),
      (1853641, 1), (4562087, 1), (173171039, 1), (2480874801745591, 1)]⟩,
    ⟨327599, by decide, 19, [(2, 1), (19, 1), (37, 1), (233, 1)]⟩,
    ⟨11465965001, by decide, 3, [(2, 3), (5, 4), (7, 1), (327599, 1)]⟩,
    ⟨405928799, by decide, 22, [(2, 1), (11, 1), (3691, 1), (4999, 1)]⟩,
    ⟨p, by decide, 3, [(2, 1), (3, 2), (13, 1), (29, 1), (67, 1), (229, 1), (311, 1), (983, 1),
      (11003, 1), (405928799, 1), (11465965001, 1),
      (13427688667394608761327070753331941386769, 1)]⟩,
    ⟨1593227, by decide, 2, [(2, 1), (19, 1), (41927, 1)]⟩,
    ⟨639533339, by decide, 2, [(2, 1), (229, 1), (853, 1), (1637, 1)]⟩,
    ⟨65865678001877903, by decide, 5, [(2, 1), (83, 1), (379, 1), (1637, 1), (639533339, 1)]⟩,
    ⟨13818364434197438864469338081, by decide, 3, [(2, 5), (5, 1), (823, 1), (1593227, 1),
      (65865678001877903, 1)]⟩,
    ⟨237073, by decide, 15, [(2, 4), (3, 1), (11, 1), (449, 1)]⟩,
    ⟨12048837557, by decide, 2, [(2, 2), (7, 2), (661, 1), (93001, 1)]⟩,
    ⟨5156902474397, by decide, 2, [(2, 2), (107, 1), (12048837557, 1)]⟩,
    ⟨1670836401704629, by decide, 2, [(2, 2), (3, 4), (5156902474397, 1)]⟩,
    ⟨r, by decide, 5, [(2, 28), (3, 2), (13, 1), (29, 1), (983, 1), (11003, 1), (237073, 1),
      (405928799, 1), (1670836401704629, 1), (13818364434197438864469338081, 1)]⟩]

theorem certifies_certificate : Certifies smallPrimes certificate := by
  decide +kernel

end Lucas

/-- The order of the base field is prime. -/
theorem prime_modulus : p.Prime :=
  Lucas.prime_of_certifies Lucas.prime_of_mem_smallPrimes Lucas.certifies_certificate
    Lucas.certificate[10] (List.getElem_mem _)

/-- The order of the scalar field is prime. -/
theorem prime_order : r.Prime :=
  Lucas.prime_of_certifies Lucas.prime_of_mem_smallPrimes Lucas.certifies_certificate
    Lucas.certificate[19] (List.getElem_mem _)

instance : Fact p.Prime := ⟨prime_modulus⟩

instance : Fact r.Prime := ⟨prime_order⟩

instance : Fact (2 < p) := ⟨by decide⟩

instance : Fact (2 < r) := ⟨by decide⟩

end BlsBn254
