import QuantumCircuits.Fault
import QuantumCircuits.Number.Scalar

/-! Sources of random draws. A source is a stream of words of 64 bits; a draw takes the next word
and reads it as a fraction with 53 or with 52 binary places. -/

namespace QuantumCircuits

/-- A stream of draws, of which the first `used` have been taken. Draw `k` can be read at either
precision. -/
structure DrawSource (R : Type) where
  unit : Nat → R
  fraction : Nat → R
  used : Nat

namespace DrawSource

variable {R : Type} [Scalar R]

def ofWords (word : Nat → UInt64) : DrawSource R where
  unit k := (((word k >>> 11).toNat : Nat) : R) / Scalar.twoPow 53
  fraction k := (((word k >>> 12).toNat : Nat) : R) / Scalar.twoPow 52
  used := 0

def mix (z : UInt64) : UInt64 :=
  let z := (z ^^^ (z >>> 30)) * 0xBF58476D1CE4E5B9
  let z := (z ^^^ (z >>> 27)) * 0x94D049BB133111EB
  z ^^^ (z >>> 31)

/-- Word `k` is the mix of the seed advanced `k + 1` times by a fixed odd step. -/
def seeded (seed : UInt64) : DrawSource R :=
  ofWords fun k => mix (seed + (UInt64.ofNat k + 1) * 0x9E3779B97F4A7C15)

def cycling (words : Array UInt64) : DrawSource R :=
  ofWords fun k => words.getD (k % words.size) 0

end DrawSource

/-- A computation that takes draws. Draws taken before a fault stay taken. -/
abbrev Sampler (R : Type) := ExceptT Fault (StateM (DrawSource R))

namespace Sampler

variable {R : Type}

def drawUnit : Sampler R R := do
  let source ← get
  set { source with used := source.used + 1 }
  return source.unit source.used

def drawFraction : Sampler R R := do
  let source ← get
  set { source with used := source.used + 1 }
  return source.fraction source.used

end Sampler

end QuantumCircuits
