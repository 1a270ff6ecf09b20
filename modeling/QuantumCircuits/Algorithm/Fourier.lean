import QuantumCircuits.Circuit.Basic

/-! The quantum Fourier transform. Wire 0 is the least significant bit on both sides. -/

namespace QuantumCircuits.Fourier

variable {R : Type} [Scalar R]

def reversal (n : Nat) : List (Step (Operation R)) :=
  (List.range (n / 2)).map fun i => .fixed .swap [i, n - 1 - i]

def stage (n i : Nat) : List (Step (Operation R)) :=
  .fixed .h [i] :: (List.range' (i + 1) (n - (i + 1))).map fun (j : Nat) =>
    .gate (.cphase (.value (Scalar.pi / Scalar.twoPower ((j : Int) - i)))) [i, j]

/-- Maps a basis state `x` to the sum of all `y` with phases of `x * y` turns over `2 ^ n`. -/
def transform (n : Nat) : Except Fault (Operation R) := do
  let (_, circuit) ← (Circuit.empty "qft").addRegister "c" n
  let circuit ← circuit.appendAll (reversal n ++ (List.range n).flatMap (stage n))
  return .composite circuit

def inverseTransform (n : Nat) : Except Fault (Operation R) := do
  (← transform n).inverse

end QuantumCircuits.Fourier
