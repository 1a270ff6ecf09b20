import QuantumCircuits.Algorithm.Fourier

/-! Phase estimation of an operation. -/

namespace QuantumCircuits

variable {R : Type} [Scalar R]

def countingSteps (u : Operation R) (b c : Register) : Except Fault (List (Step (Operation R))) :=
  (List.range c.size).mapM fun i => do
    let powered ← u.powerOfTwo i
    let controlled ← powered.control 1 (.allSet 1)
    return ⟨controlled, c.wire i :: b.wires⟩

/-- Phase estimation over a register `b` for the operation and a register `c` that counts. The
counting register of an eigenvector ends near `2 ^ t` times its phase in turns. -/
def phaseEstimation (n t : Nat) (u : Operation R) : Except Fault (Operation R) := do
  if u.arity ≠ n then throw (.arity u.name n u.arity)
  let (b, circuit) ← (Circuit.empty "qpe").addRegister "b" n
  let (c, circuit) ← circuit.addRegister "c" t
  let circuit ← circuit.appendAll (c.wires.map fun w => .fixed .h [w])
  let circuit ← circuit.appendAll (← countingSteps u b c)
  let circuit ← circuit.append (← Fourier.inverseTransform t) c.wires
  return .composite circuit

end QuantumCircuits
