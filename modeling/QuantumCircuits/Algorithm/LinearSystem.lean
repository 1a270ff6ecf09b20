import QuantumCircuits.Algorithm.PhaseEstimation
import QuantumCircuits.Algorithm.RotationLadder
import QuantumCircuits.State

/-! Circuits that solve linear systems of equations. A real symmetric matrix drives an evolution,
phase estimation writes its eigenvalues into a counting register, and a rotation of an ancilla by an
angle read from there weighs the eigenvectors. -/

namespace QuantumCircuits.LinearSystem

variable {R : Type} [Scalar R]

structure Size where
  n : Nat
  t : Nat
  m : Nat
  l : Nat
deriving DecidableEq, Repr

def Size.wires (s : Size) : Nat := s.n + s.t + s.m + s.l

def timeEvolution (a : DenseMatrix R) (time : R) : Except Fault (Operation R) := do
  if a.rows ≠ a.columns then throw (.matrix (.systemNotSquare a.rows a.columns))
  return .primitive (← Gate.ofHamiltonian (a.map Cx.ofReal) (.value time))

def eigenvalueEstimation (a : DenseMatrix R) (t0 : R) (n t : Nat) : Except Fault (Operation R) := do
  let u ← timeEvolution a (-(t0 / Scalar.twoPower (t : Int)))
  phaseEstimation n t u

/-- The block that is later undone: eigenvalue estimation, preparation of the workspace and output
registers, and the reciprocal rotation. -/
def forward (size : Size) (a : DenseMatrix R) (t0 : R) : Except Fault (Operation R) := do
  let (b, circuit) ← (Circuit.empty "forward").addRegister "b" size.n
  let (c, circuit) ← circuit.addRegister "c" size.t
  let (workspace, circuit) ← circuit.addRegister "m" size.m
  let (out, circuit) ← circuit.addRegister "l" size.l
  let estimation ← eigenvalueEstimation a t0 size.n size.t
  let circuit ← circuit.append estimation (b.wires ++ c.wires)
  let circuit ← circuit.appendAll ((workspace.wires ++ out.wires).map fun w => .fixed .h [w])
  let circuit ← circuit.appendAll <| (List.range size.m).map fun (i : Nat) =>
    let θ := t0 / Scalar.twoPower ((size.m : Int) - i)
    .gate (.rz (.value θ)) [workspace.wire i]
  let rotation ← RotationLadder.reciprocal size.t size.m size.l t0
  let circuit ← circuit.append rotation (c.wires ++ workspace.wires ++ out.wires)
  return .composite circuit

/-- The forward block, on the ancilla a rotation by `theta * 2 ^ k` for each output bit `k`, and the
inverse of the forward block. -/
def solver (a : DenseMatrix R) (t0 theta : R) (size : Size) : Except Fault (Circuit R) := do
  let block ← forward size a t0
  let (b, circuit) ← (Circuit.empty "hhl").addRegister "b" size.n
  let (c, circuit) ← circuit.addRegister "c" size.t
  let (workspace, circuit) ← circuit.addRegister "m" size.m
  let (out, circuit) ← circuit.addRegister "l" size.l
  let (ancilla, circuit) ← circuit.addRegister "anc" 1
  let all := b.wires ++ c.wires ++ workspace.wires ++ out.wires
  let circuit ← circuit.append block all
  let rotations ← (List.range size.l).mapM fun k => do
    let rotation ← (Operation.primitive (Gate.cry (.value theta))).powerOfTwo k
    return ⟨rotation, [out.wire k, ancilla.wire 0]⟩
  let circuit ← circuit.appendAll rotations
  circuit.append (← block.inverse) all

/-- Eigenvalue estimation, on the ancilla a rotation by `π * 2 ^ (t - i - r)` for each counting bit
`i`, and the inverse of the estimation. -/
def compactSolver (a : DenseMatrix R) (t0 : R) (r : Int) (n t : Nat) :
    Except Fault (Circuit R) := do
  let estimation ← eigenvalueEstimation a t0 n t
  let (b, circuit) ← (Circuit.empty "compact_hhl").addRegister "b" n
  let (c, circuit) ← circuit.addRegister "c" t
  let (ancilla, circuit) ← circuit.addRegister "anc" 1
  let circuit ← circuit.append estimation (b.wires ++ c.wires)
  let circuit ← circuit.appendAll <| (List.range t).map fun (i : Nat) =>
    let θ := Scalar.pi * Scalar.twoPower ((t : Int) - i - r)
    .gate (.cry (.value θ)) [c.wire i, ancilla.wire 0]
  circuit.append (← estimation.inverse) (b.wires ++ c.wires)

/-- Amplitudes of register `b` where the first wire of register `anc` reads one and every other wire
reads zero. -/
def solution (c : Circuit R) (s : State R) : Except Fault (List (Cx R)) := do
  let find (name : String) : Except Fault Register :=
    match c.layout.find? name with
    | some r => .ok r
    | none => .error (.state (.missingRegister name))
  let b ← find "b"
  let ancilla ← find "anc"
  match (Basis.others c.wires b.wires).idxOf? (ancilla.wire 0) with
  | some position => return s.slice b.wires (1 <<< position)
  | none => throw (.state (.missingRegister "anc"))

end QuantumCircuits.LinearSystem
