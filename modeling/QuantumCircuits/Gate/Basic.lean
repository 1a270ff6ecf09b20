import QuantumCircuits.Basis
import QuantumCircuits.Gate.Param
import QuantumCircuits.Matrix.Dense

/-! The primitive gates: their names, wires, parameters and adjoints. -/

namespace QuantumCircuits

inductive FixedGate where
  | h | x | y | z | s | sdg | t | tdg | cx | cz | swap
deriving DecidableEq, Repr

inductive AngleGate where
  | rx | ry | rz | phase | cphase | cry
deriving DecidableEq, Repr

/-- A primitive gate. Controlled kinds take the control first; of a dense gate the first wire is the
lowest bit of the matrix index. -/
inductive Gate (R : Type) where
  | fixed (kind : FixedGate)
  | angle (kind : AngleGate) (angle : Param R)
  | dense (label : String) (matrix : DenseMatrix (Cx R))
  | evolution (hamiltonian : DenseMatrix (Cx R)) (time : Param R)
  | noise
  | reset

namespace FixedGate

def name : FixedGate → String
  | h => "h"
  | x => "x"
  | y => "y"
  | z => "z"
  | s => "s"
  | sdg => "sdg"
  | t => "t"
  | tdg => "tdg"
  | cx => "cx"
  | cz => "cz"
  | swap => "swap"

def controls : FixedGate → Nat
  | cx | cz => 1
  | _ => 0

def targets : FixedGate → Nat
  | swap => 2
  | _ => 1

def adjoint : FixedGate → FixedGate
  | s => sdg
  | sdg => s
  | t => tdg
  | tdg => t
  | g => g

end FixedGate

namespace AngleGate

def name : AngleGate → String
  | rx => "rx"
  | ry => "ry"
  | rz => "rz"
  | phase => "p"
  | cphase => "cp"
  | cry => "cry"

def controls : AngleGate → Nat
  | cphase | cry => 1
  | _ => 0

end AngleGate

namespace Gate

variable {R : Type} [Scalar R]

instance : BEq (Gate R) where
  beq
    | .fixed a, .fixed b => a == b
    | .angle a p, .angle b q => a == b && p == q
    | .dense l m, .dense k n => l == k && m == n
    | .evolution h p, .evolution k q => h == k && p == q
    | .noise, .noise => true
    | .reset, .reset => true
    | _, _ => false

def rx (θ : Param R) : Gate R := .angle .rx θ

def ry (θ : Param R) : Gate R := .angle .ry θ

def rz (θ : Param R) : Gate R := .angle .rz θ

def cphase (θ : Param R) : Gate R := .angle .cphase θ

def cry (θ : Param R) : Gate R := .angle .cry θ

def name : Gate R → String
  | .fixed kind => kind.name
  | .angle kind _ => kind.name
  | .dense label _ => label
  | .evolution .. => "evolution"
  | .noise => "noise"
  | .reset => "reset"

def controls : Gate R → Nat
  | .fixed kind => kind.controls
  | .angle kind _ => kind.controls
  | _ => 0

def arity : Gate R → Nat
  | .fixed kind => kind.controls + kind.targets
  | .angle kind _ => kind.controls + 1
  | .dense _ matrix => matrix.wireCount
  | .evolution hamiltonian _ => hamiltonian.wireCount
  | .noise | .reset => 1

def isUnitary : Gate R → Bool
  | .reset => false
  | _ => true

def adjoint? : Gate R → Option (Gate R)
  | .fixed kind => some (.fixed kind.adjoint)
  | .angle kind θ => some (.angle kind θ.neg)
  | .dense label matrix => some (.dense (label ++ "_dg") matrix.adjoint)
  | .evolution hamiltonian time => some (.evolution hamiltonian time.neg)
  | .noise => some .noise
  | .reset => none

def adjoint (g : Gate R) : Except Fault (Gate R) :=
  match g.adjoint? with
  | some a => .ok a
  | none => .error (.noAdjoint g.name)

def param? : Gate R → Option (Param R)
  | .angle _ θ => some θ
  | .evolution _ time => some time
  | _ => none

def tokenNames (g : Gate R) : List String := (g.param?.map Param.tokenNames).getD []

def isSymbolic (g : Gate R) : Bool := g.param?.any Param.isSymbolic

def bind (b : Bindings R) : Gate R → Except Fault (Gate R)
  | .angle kind θ => (θ.bind b).map (.angle kind)
  | .evolution hamiltonian time => (time.bind b).map (.evolution hamiltonian)
  | g => .ok g

theorem bind_of_not_symbolic {g : Gate R} {b : Bindings R} (h : g.isSymbolic = false) :
    g.bind b = .ok g := by
  cases g with
  | angle kind θ => exact congrArg (·.map (Gate.angle kind)) (Param.bind_of_not_symbolic h)
  | evolution m time => exact congrArg (·.map (Gate.evolution m)) (Param.bind_of_not_symbolic h)
  | _ => rfl

def text [DecimalText R] (g : Gate R) : String :=
  match g.param? with
  | none => g.name
  | some θ => g.name ++ "(" ++ θ.text ++ ")"

/-- A gate's matrix must be square, of a dimension that is a power of two from two on. -/
def checkDimension (m : DenseMatrix (Cx R)) : Except Fault Unit :=
  if m.rows ≠ m.columns then .error (.matrix (.notSquare m.rows m.columns))
  else if m.rows < 2 || (Basis.wires? m.rows).isNone then .error (.matrix (.dimension m.rows))
  else .ok ()

def ofUnitary (label : String) (m : DenseMatrix (Cx R)) : Except Fault (Gate R) := do
  checkDimension m
  if (m.adjoint * m).isNear (DenseMatrix.identity m.rows) then return .dense label m
  else throw (.matrix .notUnitary)

def ofHamiltonian (h : DenseMatrix (Cx R)) (time : Param R) : Except Fault (Gate R) := do
  checkDimension h
  if h.isNear h.adjoint then return .evolution h time
  else throw (.matrix .notHermitian)

end Gate
end QuantumCircuits
