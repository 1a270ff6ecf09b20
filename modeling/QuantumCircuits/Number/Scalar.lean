/-! Real numbers as amplitudes, angles and probabilities use them. The class asks for operations
and no laws, so that machine numbers, real numbers and real numbers extended by an undefined
value can all be computed with. -/

namespace QuantumCircuits

-- Powers of naturals are the built-in ones, whatever else is imported.
attribute [scoped instance (2000)] instPowNat

/-- The operations of a number type. Order and equality need not be total or reflexive. -/
class Scalar (R : Type) extends Zero R, One R, Add R, Sub R, Mul R, Neg R, Div R, NatCast R,
    BEq R, LT R, LE R where
  decidableLT : DecidableLT R
  decidableLE : DecidableLE R
  pi : R
  sqrt : R → R
  sin : R → R
  cos : R → R
  log2 : R → R
  hypot : R → R → R
  isInfinite : R → Bool
  ceilNat : R → Nat

class DecimalText (R : Type) where
  shortest : R → String
  fixed : Nat → R → String

/-- Combines `acc` with `n` copies of `base`. The bits of `n` are read from the lowest, the base is
squared between two bits, and the square after the last bit is not computed. -/
def repeatedSquares {α : Type} (mul : α → α → α) (acc base : α) (n : Nat) : α :=
  if n = 0 then acc
  else
    let next := if n % 2 = 1 then mul acc base else acc
    if n / 2 = 0 then next else repeatedSquares mul next (mul base base) (n / 2)
termination_by n

namespace Scalar

variable {R : Type} [Scalar R]

instance : DecidableLT R := Scalar.decidableLT

instance : DecidableLE R := Scalar.decidableLE

def two : R := ((2 : Nat) : R)

def half (x : R) : R := x / two

/-- Sum from the left. It starts at negative zero, the one start that changes no sum of machine
numbers, so that the empty sum is negative too. -/
def sum (xs : List R) : R := xs.foldl (· + ·) (-0)

def inUnit (x : R) : Bool := decide ((0 : R) ≤ x) && decide (x ≤ 1)

def magnitude (x : R) : R := if x < 0 then -x else x

/-- The direction of a number, one for zero. A zero that comes from below has a negative reciprocal
and counts as negative. -/
def sign (x : R) : R := if x < 0 || 1 / x < 0 then -1 else 1

def twoPow (n : Nat) : R := repeatedSquares (· * ·) 1 two n

def twoPower : Int → R
  | .ofNat n => twoPow n
  | .negSucc n => 1 / twoPow (n + 1)

def epsilon : R := 1 / twoPow 52

def tolerance : R := 1 / ((1000000000 : Nat) : R)

end Scalar
end QuantumCircuits
