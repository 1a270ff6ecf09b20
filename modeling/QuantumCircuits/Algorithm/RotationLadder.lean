import QuantumCircuits.Circuit.Basic

/-! Rotations about an angle that is proportional to the product of two register values, built from
three levels of ladders: over the workspace, over the counting bits and over the output bits. -/

namespace QuantumCircuits.RotationLadder

variable {R : Type} [Scalar R]

def scale (t0 : R) (exponent : Int) : R := -t0 / Scalar.twoPower exponent

/-- Scale of the ladder for counting weight `u` and output weight `v`. Weights come from a caller,
and the exponent that they add up to is read as a signed number of 32 bits. -/
def coefficient (m u v : Nat) (t0 : R) : R :=
  scale t0 (Int32.ofInt ((u : Int) + v - m)).toInt

theorem coefficient_eq_scale {m u v : Nat} (t0 : R) (above : 2 * (u + v) < Int32.size)
    (below : 2 * m < Int32.size) : coefficient m u v t0 = scale t0 ((u : Int) + v - m) := by
  rw [coefficient, Int32.toInt_ofInt, Int.bmod_eq_of_le] <;> omega

def kicks (m : Nat) (c : R) : Except Fault (Operation R) := do
  let (workspace, circuit) ← (Circuit.empty "ladder").addRegister "m" m
  let circuit ← circuit.appendAll <| (List.range m).map fun (i : Nat) =>
    .gate (.rz (.value (c / Scalar.twoPower ((i : Int) + 1)))) [workspace.wire i]
  return .composite circuit

def ladder (m u v : Nat) (t0 : R) : Except Fault (Operation R) := kicks m (coefficient m u v t0)

/-- For output bit `k`, one ladder on the workspace for each counting bit `i`, of scale `c i`, under
the control of both bits. -/
def bank (t m l k : Nat) (c : Nat → R) : Except Fault (Operation R) := do
  let (counting, circuit) ← (Circuit.empty "controlled_ladders").addRegister "c" t
  let (workspace, circuit) ← circuit.addRegister "m" m
  let (out, circuit) ← circuit.addRegister "l" l
  let steps ← (List.range t).mapM fun i => do
    let controlled ← (← kicks m (c i)).control 2 (.allSet 2)
    return ⟨controlled, out.wire k :: counting.wire i :: workspace.wires⟩
  return .composite (← circuit.appendAll steps)

def controlledLadders (t m l k : Nat) (t0 : R) : Except Fault (Operation R) :=
  bank t m l k fun i => coefficient m (t - i) (l - k) t0

def stack (t m l : Nat) (block : Nat → Except Fault (Operation R)) : Except Fault (Operation R) := do
  let (counting, circuit) ← (Circuit.empty "reciprocal_rotation").addRegister "c" t
  let (workspace, circuit) ← circuit.addRegister "m" m
  let (out, circuit) ← circuit.addRegister "l" l
  let steps ← (List.range l).mapM fun k => do
    return ⟨← block k, counting.wires ++ workspace.wires ++ out.wires⟩
  return .composite (← circuit.appendAll steps)

/-- The banks of all output bits, with exponents of any size. -/
def reciprocal (t m l : Nat) (t0 : R) : Except Fault (Operation R) :=
  stack t m l fun k => bank t m l k fun i => scale t0 ((t : Int) - i + ((l : Int) - k) - m)

end QuantumCircuits.RotationLadder
