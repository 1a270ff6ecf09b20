import QuantumCircuits.Optimization.Clause
import QuantumCircuits.Optimization.Simplex
import QuantumCircuits.Simulation.Sampling

/-! Approximate optimisation of a weighted sum of clauses by alternating layers: an evolution under
the cost, and a rotation of every variable. Variable `j` is character `j` of a label, so it lives on
wire `n - 1 - j`. -/

namespace QuantumCircuits

structure LayerAngles (R : Type) where
  gamma : List R
  beta : List R

namespace LayerAngles

variable {R : Type}

def toPoint (a : LayerAngles R) : List R := a.beta ++ a.gamma

def ofPoint (layers : Nat) (point : List R) : LayerAngles R :=
  ⟨(point.drop layers).take layers, point.take layers⟩

end LayerAngles

structure AlternatingAnsatz (R : Type) where
  clauses : List (Clause R)
  variableCount : Nat
  layers : Nat
  shots : Nat
  maxSteps : Nat
  template : Circuit R

structure AlternatingAnsatz.Optimum (R : Type) where
  angles : LayerAngles R
  expectation : R
  iterations : Nat

namespace AlternatingAnsatz

variable {R : Type} [Scalar R]

def assignment (n z : Nat) : List Bool :=
  (List.range n).map fun j => z.testBit (n - 1 - j)

def costOf (clauses : List (Clause R)) (n z : Nat) : R :=
  Scalar.sum ((clauses.filter fun c => c.satisfied (assignment n z)).map Clause.weight)

def costMatrix (clauses : List (Clause R)) (n : Nat) : DenseMatrix (Cx R) :=
  DenseMatrix.diagonal ((Basis.indices n).map fun z => Cx.ofReal (costOf clauses n z))

def gammaFamily (layers : Nat) : ParamFamily := ⟨"gamma", layers⟩

def betaFamily (layers : Nat) : ParamFamily := ⟨"beta", layers⟩

def layer (cost : DenseMatrix (Cx R)) (layers : Nat) (q : Register) (i : Nat) :
    Except Fault (List (Step (Operation R))) := do
  let evolution ← Gate.ofHamiltonian cost ((gammaFamily layers).get i)
  let rotations := q.wires.map fun w =>
    .gate (.rx (((betaFamily layers).get i).scale Scalar.two)) [w]
  return .gate evolution q.wires :: rotations

def buildTemplate (clauses : List (Clause R)) (n layers : Nat) : Except Fault (Circuit R) := do
  let (q, circuit) ← (Circuit.empty "qaoa").addRegister "q" n
  let circuit ← circuit.appendAll (q.wires.map fun w => .fixed .h [w])
  let cost := costMatrix clauses n
  (List.range layers).foldlM (fun c i => do c.appendAll (← layer cost layers q i)) circuit

def ofClauses (clauses : List (Clause R)) (layers shots maxSteps : Nat) :
    Except Fault (AlternatingAnsatz R) := do
  let n := (clauses.head?.map Clause.length).getD 0
  if n = 0 || clauses.any fun c => c.length != n then
    throw (.state .clauseLengths)
  let template ← buildTemplate clauses n layers
  return { clauses, variableCount := n, layers, shots, maxSteps, template }

def label (a : AlternatingAnsatz R) (z : Nat) : String := Basis.label a.variableCount z

def cost (a : AlternatingAnsatz R) (z : Nat) : R := costOf a.clauses a.variableCount z

def bind (a : AlternatingAnsatz R) (angles : LayerAngles R) : Except Fault (Circuit R) := do
  let b ← Bindings.empty.insertFamily (gammaFamily a.layers) angles.gamma
  let b ← b.insertFamily (betaFamily a.layers) angles.beta
  a.template.bind b

def initialAngles (a : AlternatingAnsatz R) : Sampler R (LayerAngles R) := do
  let gamma ← (List.range a.layers).mapM fun _ => Sampler.drawUnit
  let beta ← (List.range a.layers).mapM fun _ => Sampler.drawUnit
  return { gamma, beta }

/-- The initial point, and a point for each coordinate in which it is moved by a quarter and half a
draw. -/
def startingPoints (initial : List R) : Sampler R (List (List R)) := do
  let quarter : R := 1 / ((4 : Nat) : R)
  let moved ← initial.zipIdx.mapM fun (x, i) => do
    return initial.set i (x + (quarter + Scalar.half 1 * (← Sampler.drawUnit)))
  return initial :: moved

variable [EigenSolver R]

def exactExpectation (a : AlternatingAnsatz R) (angles : LayerAngles R) : Except Fault R := do
  let circuit ← a.bind angles
  let final ← circuit.statevector (.zero a.variableCount)
  return Scalar.sum (final.probabilities.zipIdx.map fun (p, z) => p * a.cost z)

def measure (a : AlternatingAnsatz R) (angles : LayerAngles R) (shots : Nat) :
    Sampler R Histogram := do
  let circuit ← liftM (a.bind angles)
  circuit.sample none (.zero a.variableCount) shots

def sampledExpectation (a : AlternatingAnsatz R) (angles : LayerAngles R) : Sampler R R := do
  let h ← a.measure angles a.shots
  return Scalar.sum (h.entries.map fun (z, count) =>
    a.cost z * ((count : Nat) : R) / ((a.shots : Nat) : R))

def sampleMode (a : AlternatingAnsatz R) (angles : LayerAngles R) : Sampler R Nat := do
  let h ← a.measure angles a.shots
  match h.mode? with
  | some z => return z
  | none => throw (.state .noSamples)

/-- The negated expectation at a point; a search has its own wording for faults met there. -/
def objective (a : AlternatingAnsatz R) (point : List R) : Except Fault R :=
  match a.exactExpectation (.ofPoint a.layers point) with
  | .ok x => .ok (-x)
  | .error fault => .error (.optimization (.objective fault.message))

def optimize (a : AlternatingAnsatz R) : Sampler R (Optimum R) := do
  let initial ← a.initialAngles
  let points ← startingPoints initial.toPoint
  let (v, iterations) ← liftM (Simplex.minimize a.objective points a.maxSteps)
  return ⟨.ofPoint a.layers v.point, -v.cost, iterations⟩

end AlternatingAnsatz
end QuantumCircuits
