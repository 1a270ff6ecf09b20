import QuantumCircuits.Circuit.Basic
import QuantumCircuits.Gate.Matrices
import QuantumCircuits.State

/-! The flat form of a circuit: a list of matrices placed on wires, noise markers and resets. -/

namespace QuantumCircuits

/-- A matrix on target wires, which acts where every control wire reads its flag. -/
structure Placement (R : Type) where
  controls : List (Nat × Bool)
  targets : List Nat
  matrix : DenseMatrix (Cx R)

inductive Instruction (R : Type) where
  | gate (placement : Placement R)
  | noise (wire : Nat)
  | reset (wire : Nat)

namespace Placement

variable {R : Type} [Scalar R]

def active (p : Placement R) (index : Nat) : Bool :=
  p.controls.all fun (w, flag) => index.testBit w == flag

/-- The indices on `n` wires that read zero outside of the targets, in ascending order, each with
the column of the matrix that it stands for. -/
def columns (p : Placement R) (n : Nat) : List (Nat × Nat) :=
  let wires := Basis.ascending n p.targets
  (Basis.indices wires.length).map fun bits =>
    let offset := Basis.scatter bits wires
    (offset, Basis.gather offset p.targets)

def line (p : Placement R) (columns : List (Nat × Nat)) (i : Nat) : List (Nat × Cx R) :=
  columns.filterMap fun (offset, column) =>
    let entry := p.matrix.get i column
    if 0 < entry.normSq then some (offset, entry) else none

/-- The entries of row `index` of the operator on `n` wires that the placement stands for, with
their columns in ascending order. -/
def row (p : Placement R) (n index : Nat) : List (Nat × Cx R) :=
  if p.active index then
    let base := Basis.clear index p.targets
    (p.line (p.columns n) (Basis.gather index p.targets)).map fun (offset, entry) =>
      (base ||| offset, entry)
  else [(index, 1)]

/-- The operator applied to a state. Each row gives the update `α · dot + β · 0` with `α = 1` and
`β = 0`; the factors only matter where a part is infinite. The rows of the matrix are read once. -/
def apply (p : Placement R) (s : State R) : State R :=
  let columns := p.columns s.qubits
  let lines := ((Basis.indices p.targets.length).map (p.line columns)).toArray
  .ofFn s.qubits fun i =>
    let dot :=
      if p.active i then
        let base := Basis.clear i p.targets
        let line := lines[Basis.gather i p.targets]?.getD []
        line.foldl (fun sum (offset, entry) => sum + entry * s.amp (base ||| offset)) 0
      else 0 + 1 * s.amp i
    0 * 0 + 1 * dot

theorem amp_apply (p : Placement R) (s : State R) {i : Nat} (h : i < 2 ^ s.qubits) :
    (p.apply s).amp i = 0 * 0 + 1 * (p.row s.qubits i).foldl
      (fun sum (j, entry) => sum + entry * s.amp j) 0 := by
  rw [apply, State.amp_ofFn _ _ h]
  have inside := Basis.gather_lt i p.targets
  by_cases active : p.active i <;>
    simp [row, active, Basis.indices, inside, List.foldl_map]

@[simp] theorem qubits_apply (p : Placement R) (s : State R) :
    (p.apply s).qubits = s.qubits := rfl

end Placement

namespace Instruction

variable {R : Type} [Scalar R] [EigenSolver R]

/-- A body repeated. A body of one gate gives one gate with the power of its matrix. -/
def repeated (body : List (Instruction R)) (exponent : Nat) : List (Instruction R) :=
  match body with
  | [] => []
  | [.gate p] => [.gate { p with matrix := p.matrix.pow exponent }]
  | _ => (List.replicate exponent body).flatten

def ofGate (g : Gate R) (wires : List Nat) (controls : List (Nat × Bool)) (adjoint : Bool) :
    Except Fault (List (Instruction R)) :=
  match g with
  | .noise =>
    if controls.isEmpty then .ok [.noise (wires.headD 0)] else .error (.notUnitary g.name)
  | .reset =>
    if !controls.isEmpty then .error (.notUnitary g.name)
    else if adjoint then .error (.noAdjoint g.name)
    else .ok [.reset (wires.headD 0)]
  | _ => do
    let g ← if adjoint then g.adjoint else pure g
    let matrix ← g.targetMatrix
    let own := (wires.take g.controls).map fun w => (w, true)
    return [.gate ⟨controls ++ own, wires.drop g.controls, matrix⟩]

def outer (wires inside : List Nat) : List Nat := inside.map fun w => wires.getD w 0

def inSequence (parts : List (Except Fault (List (Instruction R)))) :
    Except Fault (List (Instruction R)) := do
  return (← parts.mapM id).flatten

mutual

def ofOperation (wires : List Nat) (controls : List (Nat × Bool)) (adjoint : Bool) :
    Operation R → Except Fault (List (Instruction R))
  | .primitive g => ofGate g wires controls adjoint
  | .composite ⟨_, _, steps⟩ =>
    let parts := ofSteps wires controls adjoint [] steps
    inSequence (if adjoint then parts else parts.reverse)
  | .controlled o s =>
    let own := (wires.take s.length).zip s.flags
    ofOperation (wires.drop s.length) (controls ++ own) adjoint o
  | .powered o e => do return repeated (← ofOperation wires controls adjoint o) e
  | .inverted o => ofOperation wires controls (!adjoint) o
termination_by structural o => o

def ofSteps (wires : List Nat) (controls : List (Nat × Bool)) (adjoint : Bool)
    (done : List (Except Fault (List (Instruction R)))) :
    List (Step (Operation R)) → List (Except Fault (List (Instruction R)))
  | [] => done
  | ⟨o, w⟩ :: rest =>
    ofSteps wires controls adjoint (ofOperation (outer wires w) controls adjoint o :: done) rest
termination_by structural steps => steps

end

def ofCircuit (c : Circuit R) : Except Fault (List (Instruction R)) :=
  ofOperation (List.range c.wires) [] false (.composite c)

end Instruction
end QuantumCircuits
