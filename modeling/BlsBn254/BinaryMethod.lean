/-!
# The binary method

Multiples in a group, powers in a field and the values along a pairing loop are
all reached the same way: read the bits of the number from the most significant
one, double at every bit, and take one more step at every bit that is set
(`binaryMethod`). It needs about two operations a bit where counting needs one
a unit.

That the result belongs to the number asked for holds for any relation between
numbers and values that starts at zero, that doubling carries from `k` to
`2 * k` and a step from `k` to `k + 1` (`binaryMethod_rel`).
-/

namespace BlsBn254

variable {α : Type}

/-- The value reached from `a` by reading the `i` lowest bits of `n`, the highest
    of them first: doubling at each, and stepping at each that is set. -/
@[specialize]
def readBits (double step : α → α) (n : Nat) : (i : Nat) → (a : α) → α
  | 0, a => a
  | i + 1, a => readBits double step n i (if n.testBit i then step (double a) else double a)

/-- The value that belongs to `n`, if `start` belongs to zero: doubling and
    stepping through the bits of `n`. -/
@[specialize, irreducible]
def binaryMethod (double step : α → α) (start : α) (n : Nat) : α :=
  readBits double step n (n.log2 + 1) start

/-- Reading the `i` lowest bits of `n` leads from the number above them to `n`. -/
theorem readBits_rel {R : Nat → α → Prop} {double step : α → α}
    (hdouble : ∀ k a, R k a → R (2 * k) (double a)) (hstep : ∀ k a, R k a → R (k + 1) (step a))
    (n i : Nat) (a : α) (ha : R (n >>> i) a) : R n (readBits double step n i a) := by
  induction i generalizing a with
  | zero => exact ha
  | succ i ih =>
    apply ih
    have hn : n >>> i = 2 * (n >>> (i + 1)) + (n.testBit i).toNat := by
      rw [Nat.shiftRight_succ, Nat.toNat_testBit, Nat.shiftRight_eq_div_pow]
      omega
    rw [hn]
    cases hb : n.testBit i with
    | false => exact hdouble _ _ ha
    | true => exact hstep _ _ (hdouble _ _ ha)

/-- The binary method keeps any relation that doubling and stepping keep. -/
theorem binaryMethod_rel {R : Nat → α → Prop} {double step : α → α} {start : α}
    (hstart : R 0 start) (hdouble : ∀ k a, R k a → R (2 * k) (double a))
    (hstep : ∀ k a, R k a → R (k + 1) (step a)) (n : Nat) :
    R n (binaryMethod double step start n) := by
  rw [binaryMethod]
  apply readBits_rel hdouble hstep
  rw [Nat.shiftRight_eq_div_pow, Nat.div_eq_of_lt Nat.lt_log2_self]
  exact hstart

/-- The power `a ^ n`, by squaring and multiplying. -/
@[specialize]
def power [One α] [Mul α] (a : α) (n : Nat) : α := binaryMethod (fun b => b * b) (· * a) 1 n

end BlsBn254
