import Mathlib
import BlsBn254.Keys.Signer

/-!
# Runs of operations

A *run* is a finite sequence of operations that starts from no value at all: what an
operation works on is bytes, numbers and random bytes given with it, and the values that
operations before it have reached. These are kept in *registers*, a list for each shape
of value: elements of the three kinds, and packed elements of them
(`Kind`, `Shape`, `Registers`). An operation names its operands by their positions
(`Operation`), and reaches one value (`Operation.eval`), which is appended to the list of
its shape (`Registers.step`); it has no effect if an operand is missing, or if it refuses
its operands. A value is `Reachable` if it is in a register after some run.

No operation changes a register: one that works in place is one on a copy. An operation
that draws random bytes is given the source as it stands at that time, so that several of
them may draw from one source in turn. A pair drawn from a source counts as two values, of
which an operation reaches either. What is offered for packed points alone is taken for
private keys, too, which makes for more runs and no fewer.
-/

namespace BlsBn254

/-! ## Values -/

/-- The kinds of elements. -/
inductive Kind
  | scalar
  | point₁
  | point₂
  deriving DecidableEq

namespace Kind

/-- The elements of a kind. -/
@[reducible]
def Element : Kind → Type
  | scalar => Scalar
  | point₁ => G1
  | point₂ => G2

instance : (κ : Kind) → Formatted κ.Element
  | scalar => inferInstanceAs (Formatted Scalar)
  | point₁ => inferInstanceAs (Formatted G1)
  | point₂ => inferInstanceAs (Formatted G2)

instance : (κ : Kind) → DecidableEq κ.Element
  | scalar => inferInstanceAs (DecidableEq Scalar)
  | point₁ => inferInstanceAs (DecidableEq G1)
  | point₂ => inferInstanceAs (DecidableEq G2)

instance : (κ : Kind) → Zero κ.Element
  | scalar => inferInstanceAs (Zero Scalar)
  | point₁ => inferInstanceAs (Zero G1)
  | point₂ => inferInstanceAs (Zero G2)

instance : (κ : Kind) → Add κ.Element
  | scalar => inferInstanceAs (Add Scalar)
  | point₁ => inferInstanceAs (Add G1)
  | point₂ => inferInstanceAs (Add G2)

/-- The product of an element by a scalar. -/
def mul : (κ : Kind) → κ.Element → Scalar → κ.Element
  | scalar, a, k => a * k
  | point₁, P, k => k • P
  | point₂, Q, k => k • Q

/-- The element that all others are products of. -/
def one : (κ : Kind) → κ.Element
  | scalar => 1
  | point₁ => G1.generator
  | point₂ => G2.generator

end Kind

/-- The shapes of values. -/
inductive Shape
  /-- An element. -/
  | bare (κ : Kind)
  /-- An element together with its encoding: a private key, a signature or a public key. -/
  | packed (κ : Kind)
  deriving DecidableEq

namespace Shape

/-- The values of a shape. -/
@[reducible]
def Value : Shape → Type
  | bare κ => κ.Element
  | packed κ => Packed κ.Element

instance : (σ : Shape) → Formatted σ.Value
  | bare κ => inferInstanceAs (Formatted κ.Element)
  | packed κ => inferInstanceAs (Formatted (Packed κ.Element))

end Shape

/-- The values reached so far, for each shape in the order in which they were. -/
abbrev Registers : Type := (σ : Shape) → List σ.Value

namespace Registers

/-- The registers before any operation. -/
def empty : Registers := fun _ => []

/-- The value at a position. -/
def get (s : Registers) (σ : Shape) (i : ℕ) : Option σ.Value := (s σ)[i]?

/-- The values at several positions. -/
def getAll (s : Registers) (σ : Shape) (is : List ℕ) : Option (List σ.Value) := is.mapM (s.get σ)

/-- The registers with one more value. -/
def push (s : Registers) (σ : Shape) (a : σ.Value) : Registers :=
  Function.update s σ (s σ ++ [a])

end Registers

/-! ## Operations -/

/-- The operations, by the shape of the value that they reach. Operands are given by
    their positions. -/
inductive Operation : Shape → Type
  -- elements of every kind
  | zero (κ : Kind) : Operation (.bare κ)
  | one (κ : Kind) : Operation (.bare κ)
  | add (κ : Kind) (i j : ℕ) : Operation (.bare κ)
  /-- The product of an element by the scalar at `k`. -/
  | mul (κ : Kind) (i k : ℕ) : Operation (.bare κ)
  /-- The sum of a list of elements. -/
  | aggregate (κ : Kind) (is : List ℕ) : Operation (.bare κ)
  /-- The element that a byte string encodes as a whole. -/
  | ofBytes (κ : Kind) (b : Bytes) : Operation (.bare κ)
  -- streams, for values of every shape
  /-- The value that makes up a stream. -/
  | decode (σ : Shape) (b : Bytes) : Operation σ
  /-- The value at the head of a stream. -/
  | read (σ : Shape) (b : Bytes) : Operation σ
  -- scalars
  | number (n : UInt64) : Operation (.bare .scalar)
  | random (source : Source) : Operation (.bare .scalar)
  | inverse (i : ℕ) : Operation (.bare .scalar)
  | wipe (i : ℕ) : Operation (.bare .scalar)
  -- points
  | hash (tag message : Bytes) : Operation (.bare .point₁)
  | hashWithin (tag ns message : Bytes) : Operation (.bare .point₁)
  | publicKey (k : ℕ) : Operation (.bare .point₂)
  /-- The private key of a pair drawn from a source. -/
  | keypairPrivate (source : Source) : Operation (.bare .scalar)
  /-- The public key of a pair drawn from a source. -/
  | keypairPublic (source : Source) : Operation (.bare .point₂)
  | sign (k : ℕ) (tag message : Bytes) : Operation (.bare .point₁)
  | signMessage (k : ℕ) (ns : Option Bytes) (message : Bytes) : Operation (.bare .point₁)
  | provePossession (k : ℕ) : Operation (.bare .point₁)
  -- packed elements of every kind
  | pack (κ : Kind) (i : ℕ) : Operation (.packed κ)
  /-- The element of a packed one. -/
  | unpack (κ : Kind) (i : ℕ) : Operation (.bare κ)
  /-- The packed element that a byte string encodes as a whole. -/
  | deserialize (κ : Kind) (b : Bytes) : Operation (.packed κ)
  /-- The packed sum of two packed elements. -/
  | addPacked (κ : Kind) (i j : ℕ) : Operation (.packed κ)
  -- private keys, public keys and signatures
  | keyRandom (source : Source) : Operation (.packed .scalar)
  | keyOfSeed (seed : UInt64) : Operation (.packed .scalar)
  | keyWipe (k : ℕ) : Operation (.packed .scalar)
  | keyPublic (k : ℕ) : Operation (.packed .point₂)
  | keySign (k : ℕ) (ns : Option Bytes) (message : Bytes) : Operation (.packed .point₁)
  | keyProvePossession (k : ℕ) : Operation (.packed .point₁)
  | aggregatePublicKeys (ks : List ℕ) : Operation (.packed .point₂)
  | aggregateSignatures (ss : List ℕ) : Operation (.packed .point₁)

namespace Operation

/-- The value that an operation reaches, if it reaches one. -/
def eval (s : Registers) : {σ : Shape} → Operation σ → Option σ.Value
  | _, zero _ => some 0
  | _, one κ => some κ.one
  | _, add κ i j => Option.map₂ (· + ·) (s.get (.bare κ) i) (s.get (.bare κ) j)
  | _, mul κ i k => Option.map₂ κ.mul (s.get (.bare κ) i) (s.get (.bare .scalar) k)
  | _, aggregate κ is => (s.getAll (.bare κ) is).map Scheme.aggregate
  | _, ofBytes κ b => ((format : Format κ.Element).ofBytes b).toOption
  | _, decode σ b => ((format : Format σ.Value).decode b).toOption
  | _, read σ b => ((format : Format σ.Value).read b).toOption.map Prod.fst
  | _, number n => some (Residue.ofNat n.toNat)
  | _, random source => some (Scalar.random.run source).1
  | _, inverse i => (s.get (.bare .scalar) i).bind Scalar.inverse
  | _, wipe i => (s.get (.bare .scalar) i).map Scalar.wipe
  | _, hash tag message => some (hashToCurve tag message)
  | _, hashWithin tag ns message => some (hashToCurve tag (Payload.within ns message))
  | _, publicKey k => (s.get (.bare .scalar) k).map Scheme.publicKey
  | _, keypairPrivate source => some (Scheme.keypair.run source).1.1
  | _, keypairPublic source => some (Scheme.keypair.run source).1.2
  | _, sign k tag message => (s.get (.bare .scalar) k).map fun k => Scheme.sign k tag message
  | _, signMessage k ns message =>
    (s.get (.bare .scalar) k).map fun k => Scheme.signMessage k ns message
  | _, provePossession k => (s.get (.bare .scalar) k).map Scheme.provePossession
  | _, pack κ i => (s.get (.bare κ) i).map Packed.of
  | _, unpack κ i => (s.get (.packed κ) i).map Packed.element
  | _, deserialize _ b => (Packed.deserialize b).toOption
  | _, addPacked κ i j => Option.map₂ Packed.add (s.get (.packed κ) i) (s.get (.packed κ) j)
  | _, keyRandom source => some (PrivateKey.random.run source).1
  | _, keyOfSeed seed => some (PrivateKey.ofSeed seed)
  | _, keyWipe k => (s.get (.packed .scalar) k).map PrivateKey.wipe
  | _, keyPublic k => (s.get (.packed .scalar) k).map PrivateKey.publicKey
  | _, keySign k ns message =>
    (s.get (.packed .scalar) k).map fun k => PrivateKey.sign k ns message
  | _, keyProvePossession k => (s.get (.packed .scalar) k).map PrivateKey.provePossession
  | _, aggregatePublicKeys ks =>
    (s.getAll (.packed .point₂) ks).map fun ks => (BlsBn254.aggregatePublicKeys ks).value
  | _, aggregateSignatures ss =>
    (s.getAll (.packed .point₁) ss).map fun ss => (BlsBn254.aggregateSignatures ss).value

end Operation

/-! ## Runs -/

/-- A finite sequence of operations. -/
abbrev Program := List ((σ : Shape) × Operation σ)

namespace Registers

/-- The registers after an operation. -/
def step (s : Registers) {σ : Shape} (o : Operation σ) : Registers :=
  match o.eval s with
  | some a => s.push σ a
  | none => s

/-- The registers after a run. -/
def run (s : Registers) (os : Program) : Registers := os.foldl (fun s o => s.step o.2) s

end Registers

/-- The value is reached by some run. -/
def Reachable (σ : Shape) (a : σ.Value) : Prop := ∃ os, a ∈ Registers.empty.run os σ

end BlsBn254
