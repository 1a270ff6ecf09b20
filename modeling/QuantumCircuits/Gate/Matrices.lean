import QuantumCircuits.Gate.Basic
import QuantumCircuits.Matrix.Evolution

/-! The matrix of every primitive gate on the wires that are no controls. -/

namespace QuantumCircuits

namespace DenseMatrix

variable {R : Type} [Scalar R]

def ofFour (a b c d : Cx R) : DenseMatrix (Cx R) := ofRows [[a, b], [c, d]]

def hadamard : DenseMatrix (Cx R) :=
  let v : Cx R := .ofReal (1 / Scalar.sqrt Scalar.two)
  ofFour v v v (-v)

def pauliX : DenseMatrix (Cx R) := ofFour 0 1 1 0

def pauliY : DenseMatrix (Cx R) := ofFour 0 ⟨0, -1⟩ ⟨0, 1⟩ 0

def phase (θ : R) : DenseMatrix (Cx R) := ofFour 1 0 0 (Cx.cis θ)

def pauliZ : DenseMatrix (Cx R) := phase Scalar.pi

def quarterTurn : DenseMatrix (Cx R) := phase (Scalar.pi / Scalar.two)

def eighthTurn : DenseMatrix (Cx R) := phase (Scalar.pi / ((4 : Nat) : R))

def rotationX (θ : R) : DenseMatrix (Cx R) :=
  let c : Cx R := .ofReal (Scalar.cos (Scalar.half θ))
  let s : Cx R := ⟨0, -Scalar.sin (Scalar.half θ)⟩
  ofFour c s s c

def rotationY (θ : R) : DenseMatrix (Cx R) :=
  let c : Cx R := .ofReal (Scalar.cos (Scalar.half θ))
  let s : Cx R := .ofReal (Scalar.sin (Scalar.half θ))
  ofFour c (-s) s c

def rotationZ (θ : R) : DenseMatrix (Cx R) :=
  ofFour (Cx.cis (Scalar.half (-θ))) 0 0 (Cx.cis (Scalar.half θ))

def exchange : DenseMatrix (Cx R) :=
  ofRows [[1, 0, 0, 0], [0, 0, 1, 0], [0, 1, 0, 0], [0, 0, 0, 1]]

end DenseMatrix

variable {R : Type} [Scalar R]

open DenseMatrix

def FixedGate.matrix : FixedGate → DenseMatrix (Cx R)
  | .h => hadamard
  | .x | .cx => pauliX
  | .y => pauliY
  | .z | .cz => pauliZ
  | .s => quarterTurn
  | .sdg => quarterTurn.adjoint
  | .t => eighthTurn
  | .tdg => eighthTurn.adjoint
  | .swap => exchange

def AngleGate.matrix (θ : R) : AngleGate → DenseMatrix (Cx R)
  | .rx => rotationX θ
  | .ry | .cry => rotationY θ
  | .rz => rotationZ θ
  | .phase | .cphase => DenseMatrix.phase θ

/-- The matrix on the wires that are no controls. A reset has none, and a parameter must be a
number. -/
def Gate.targetMatrix [EigenSolver R] : Gate R → Except Fault (DenseMatrix (Cx R))
  | .fixed kind => .ok kind.matrix
  | .angle kind θ => do return kind.matrix (← θ.resolve)
  | .dense _ matrix => .ok matrix
  | .evolution hamiltonian time => do return hamiltonian.evolution (← time.resolve)
  | .noise => .ok (identity 2)
  | .reset => .error (.notUnitary "reset")

end QuantumCircuits
