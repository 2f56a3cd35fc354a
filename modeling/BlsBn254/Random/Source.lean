import BlsBn254.Bytes

/-!
# Sources of random bytes

A source is an endless stream of bytes and the position up to which it has been
read. Drawing takes the next bytes of the stream, so that no byte is drawn twice
and none is skipped.

One kind of source is the stream that ChaCha with twelve rounds makes from a key
of eight words. The stream is cut into blocks of sixty-four bytes, each of which
depends on the key and its own index alone (`ChaCha.block`): four constant words,
the key, the index in two words and two words of zeroes are mixed in twelve
rounds, first down the columns of their square and then along its diagonals in
turn, and added to what they were before. Words are written with their least
significant byte first. A key can be drawn from a single number, which then
determines the source (`ChaCha.source`).
-/

namespace BlsBn254

/-! ## Drawing from a stream -/

/-- An endless stream of bytes, read up to a position. -/
structure Source where
  /-- The stream. -/
  stream : Nat → UInt8
  /-- The number of bytes drawn so far. -/
  position : Nat

namespace Source

/-- A source from its beginning. -/
def ofStream (stream : Nat → UInt8) : Source := ⟨stream, 0⟩

/-- The source of the given bytes, and of zeroes after them. -/
def scripted (bytes : Bytes) : Source := ofStream fun i => bytes.getD i 0

/-- The next `n` bytes of a source. -/
def next (s : Source) (n : Nat) : Bytes := (List.range n).map fun i => s.stream (s.position + i)

/-- Takes the next `n` bytes from the source. -/
def draw (n : Nat) : StateM Source Bytes :=
  fun s => (s.next n, { s with position := s.position + n })

@[simp]
theorem length_next (s : Source) (n : Nat) : (s.next n).length = n := by
  simp [next]

end Source

/-! ## ChaCha -/

namespace ChaCha

/-- A key. -/
abbrev Key := Vector UInt32 8

/-- The square of sixteen words that is mixed. -/
abbrev State := Vector UInt32 16

/-- The length of a block in bytes. -/
def blockLength : Nat := 64

/-- The word with its bits rotated `n` places to the left, for `n` between zero
    and thirty-two. -/
def rotateLeft (x n : UInt32) : UInt32 := (x <<< n) ||| (x >>> (32 - n))

/-- The words before the mixing: the constants spell out "expand 32-byte k". -/
def State.initial (key : Key) (index : UInt64) : State :=
  #v[0x61707865, 0x3320646e, 0x79622d32, 0x6b206574,
    key[0], key[1], key[2], key[3], key[4], key[5], key[6], key[7],
    index.toUInt32, (index >>> 32).toUInt32, 0, 0]

/-- A quarter of a round, on the words of the given indices. -/
def State.quarterRound (s : State) (a b c d : Fin 16) : State :=
  let s := s.set a (s[a] + s[b])
  let s := s.set d (rotateLeft (s[d] ^^^ s[a]) 16)
  let s := s.set c (s[c] + s[d])
  let s := s.set b (rotateLeft (s[b] ^^^ s[c]) 12)
  let s := s.set a (s[a] + s[b])
  let s := s.set d (rotateLeft (s[d] ^^^ s[a]) 8)
  let s := s.set c (s[c] + s[d])
  s.set b (rotateLeft (s[b] ^^^ s[c]) 7)

/-- Two rounds: one down the columns and one along the diagonals. -/
def State.doubleRound (s : State) : State :=
  let s := s.quarterRound 0 4 8 12
  let s := s.quarterRound 1 5 9 13
  let s := s.quarterRound 2 6 10 14
  let s := s.quarterRound 3 7 11 15
  let s := s.quarterRound 0 5 10 15
  let s := s.quarterRound 1 6 11 12
  let s := s.quarterRound 2 7 8 13
  s.quarterRound 3 4 9 14

/-- The bytes of a word, least significant first. -/
def ofWord (x : UInt32) : Bytes :=
  [x.toUInt8, (x >>> 8).toUInt8, (x >>> 16).toUInt8, (x >>> 24).toUInt8]

/-- The block of the given index. -/
def block (key : Key) (index : UInt64) : Bytes :=
  let s := State.initial key index
  let mixed := (List.range 6).foldl (fun s _ => s.doubleRound) s
  (Vector.zipWith (· + ·) s mixed).toList.flatMap ofWord

/-- The byte of the stream at a position. -/
def stream (key : Key) (position : Nat) : UInt8 :=
  (block key (.ofNat (position / blockLength))).getD (position % blockLength) 0

/-! ## Keys from numbers -/

/-- The number that follows `seed` when a key is drawn from it. -/
def advance (seed : UInt64) : UInt64 := seed * 6364136223846793005 + 11634580027462260723

/-- The word that a number yields: its upper half, mixed and rotated to the right
    as far as its five highest bits say. -/
def keyWord (x : UInt64) : UInt32 :=
  let mixed := (((x >>> 18) ^^^ x) >>> 27).toUInt32
  let places := (x >>> 59).toUInt32
  (mixed >>> places) ||| (mixed <<< ((32 - places) % 32))

/-- The key drawn from a number: the words that the numbers after it yield. -/
def keyOfSeed (seed : UInt64) : Key :=
  .ofFn fun i => keyWord ((List.range (i + 1)).foldl (fun x _ => advance x) seed)

/-- The source of random bytes that a number determines. -/
def source (seed : UInt64) : Source := .ofStream (stream (keyOfSeed seed))

end ChaCha

end BlsBn254
