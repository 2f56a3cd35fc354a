import BlsBn254.Bytes

/-!
# SHA-256

The hash of a message is computed block by block. The message is padded with a
set bit, zeroes and its length in bits to a multiple of sixteen words; every
block of sixteen words is extended to a schedule of sixty-four, each of which
drives one round on the eight words of the state; and the state before the
block is added to the state after it. The digest is the last state, thirty-two
bytes (`Sha256.length_digest`).
-/

namespace BlsBn254

namespace Sha256

/-- The length of a digest in bytes. -/
def digestLength : Nat := 32

/-- The length of a block in bytes. -/
def blockLength : Nat := 64

/-- The eight words of the state. -/
structure State where
  a : UInt32
  b : UInt32
  c : UInt32
  d : UInt32
  e : UInt32
  f : UInt32
  g : UInt32
  h : UInt32

/-- The state before the first block: the fractional bits of the square roots of
    the first eight primes. -/
def State.initial : State :=
  ⟨0x6a09e667, 0xbb67ae85, 0x3c6ef372, 0xa54ff53a,
    0x510e527f, 0x9b05688c, 0x1f83d9ab, 0x5be0cd19⟩

/-- The wordwise sum of two states. -/
def State.add (s t : State) : State :=
  ⟨s.a + t.a, s.b + t.b, s.c + t.c, s.d + t.d, s.e + t.e, s.f + t.f, s.g + t.g, s.h + t.h⟩

/-- The words of a state in order. -/
def State.words (s : State) : List UInt32 := [s.a, s.b, s.c, s.d, s.e, s.f, s.g, s.h]

/-- The constants of the sixty-four rounds: the fractional bits of the cube
    roots of the first sixty-four primes. -/
def roundConstants : List UInt32 :=
  [0x428a2f98, 0x71374491, 0xb5c0fbcf, 0xe9b5dba5, 0x3956c25b, 0x59f111f1, 0x923f82a4, 0xab1c5ed5,
    0xd807aa98, 0x12835b01, 0x243185be, 0x550c7dc3, 0x72be5d74, 0x80deb1fe, 0x9bdc06a7, 0xc19bf174,
    0xe49b69c1, 0xefbe4786, 0x0fc19dc6, 0x240ca1cc, 0x2de92c6f, 0x4a7484aa, 0x5cb0a9dc, 0x76f988da,
    0x983e5152, 0xa831c66d, 0xb00327c8, 0xbf597fc7, 0xc6e00bf3, 0xd5a79147, 0x06ca6351, 0x14292967,
    0x27b70a85, 0x2e1b2138, 0x4d2c6dfc, 0x53380d13, 0x650a7354, 0x766a0abb, 0x81c2c92e, 0x92722c85,
    0xa2bfe8a1, 0xa81a664b, 0xc24b8b70, 0xc76c51a3, 0xd192e819, 0xd6990624, 0xf40e3585, 0x106aa070,
    0x19a4c116, 0x1e376c08, 0x2748774c, 0x34b0bcb5, 0x391c0cb3, 0x4ed8aa4a, 0x5b9cca4f, 0x682e6ff3,
    0x748f82ee, 0x78a5636f, 0x84c87814, 0x8cc70208, 0x90befffa, 0xa4506ceb, 0xbef9a3f7, 0xc67178f2]

/-- The word with its bits rotated `n` places to the right, for `n` between zero
    and thirty-two. -/
def rotateRight (x n : UInt32) : UInt32 := (x >>> n) ||| (x <<< (32 - n))

/-! ## The schedule -/

/-- One more word of the schedule, which is listed from its latest word on: a
    mixture of the words two, seven, fifteen and sixteen places back. -/
def extend (w : List UInt32) : List UInt32 :=
  let x := w.getD 1 0
  let y := w.getD 14 0
  let mixed := rotateRight x 17 ^^^ rotateRight x 19 ^^^ (x >>> 10)
  let mixed' := rotateRight y 7 ^^^ rotateRight y 18 ^^^ (y >>> 3)
  (mixed + w.getD 6 0 + mixed' + w.getD 15 0) :: w

/-- The schedule of a block: its sixteen words and forty-eight more. -/
def schedule (block : List UInt32) : List UInt32 :=
  ((List.range 48).foldl (fun w _ => extend w) block.reverse).reverse

/-! ## The rounds -/

/-- One round, driven by the sum `x` of a word of the schedule and a constant. -/
def State.round (s : State) (x : UInt32) : State :=
  let mixed := rotateRight s.e 6 ^^^ rotateRight s.e 11 ^^^ rotateRight s.e 25
  let choice := (s.e &&& s.f) ^^^ (~~~s.e &&& s.g)
  let t := s.h + mixed + choice + x
  let mixed' := rotateRight s.a 2 ^^^ rotateRight s.a 13 ^^^ rotateRight s.a 22
  let majority := (s.a &&& s.b) ^^^ (s.a &&& s.c) ^^^ (s.b &&& s.c)
  ⟨t + (mixed' + majority), s.a, s.b, s.c, s.d + t, s.e, s.f, s.g⟩

/-- The state after a block. -/
def State.compress (s : State) (block : List UInt32) : State :=
  s.add ((List.zipWith (· + ·) (schedule block) roundConstants).foldl State.round s)

/-! ## The message -/

/-- The message with its padding: a set bit, as many zeroes as leave eight bytes to
    the end of a block, and in these the length of the message in bits. -/
def pad (message : Bytes) : Bytes :=
  message ++ 0x80 :: Bytes.zeros ((119 - message.length % 64) % 64) ++
    Bytes.ofNat 8 (8 * message.length)

/-- The words a byte string writes, four bytes a word. -/
def toWords : Bytes → List UInt32
  | a :: b :: c :: d :: rest =>
    ((a.toUInt32 <<< 24) ||| (b.toUInt32 <<< 16) ||| (c.toUInt32 <<< 8) ||| d.toUInt32) ::
      toWords rest
  | _ => []

/-- The state after the first `n` blocks of the given words. -/
def State.absorb (s : State) : (n : Nat) → (words : List UInt32) → State
  | 0, _ => s
  | n + 1, words => (s.compress (words.take 16)).absorb n (words.drop 16)

/-- The bytes of a word. -/
def ofWord (x : UInt32) : Bytes :=
  [(x >>> 24).toUInt8, (x >>> 16).toUInt8, (x >>> 8).toUInt8, x.toUInt8]

/-- The digest of a message. -/
def digest (message : Bytes) : Bytes :=
  let padded := pad message
  let last := State.initial.absorb (padded.length / blockLength) (toWords padded)
  last.words.flatMap ofWord

@[simp]
theorem length_digest (message : Bytes) : (digest message).length = digestLength := rfl

end Sha256

end BlsBn254
