import QuantumCircuits.Random.Weighted
import QuantumCircuits.Simulation.Exact
import QuantumCircuits.Simulation.PauliChannel

/-! Random trajectories of a circuit with noise and resets. -/

namespace QuantumCircuits

variable {R : Type} [Scalar R]

namespace Placement

def single (g : FixedGate) (wire : Nat) : Placement R := ⟨[], [wire], g.matrix⟩

end Placement

namespace State

def probabilityOfOne (s : State R) (wire : Nat) : R :=
  Scalar.sum ((s.toList.zipIdx.filter fun (_, i) => i.testBit wire).map fun (a, _) => a.normSq)

def project (s : State R) (wire : Nat) (bit : Bool) (length : R) : State R :=
  .ofFn s.qubits fun i => if i.testBit wire == bit then (s.amp i).divReal length else 0

def reset (s : State R) (wire : Nat) (draw : R) : Except Fault (State R) :=
  let one := s.probabilityOfOne wire
  let outcome := decide (draw < one)
  let length := Scalar.sqrt (if outcome then one else 1 - one)
  if length == 0 then .error (.state .zeroNormAfterReset)
  else
    let collapsed := s.project wire outcome length
    .ok (if outcome then (Placement.single .x wire).apply collapsed else collapsed)

end State

namespace Instruction

def randomStep (channel : Option (PauliChannel R)) (s : State R) :
    Instruction R → Sampler R (State R)
  | .gate p => return p.apply s
  | .noise wire => do
    match channel with
    | none => return s
    | some channel =>
      match ← channel.sampleError with
      | none => return s
      | some g => return (Placement.single g wire).apply s
  | .reset wire => do
    let draw ← Sampler.drawUnit
    liftM (s.reset wire draw)

def run (channel : Option (PauliChannel R)) (instructions : List (Instruction R)) (s : State R) :
    Sampler R (State R) :=
  instructions.foldlM (randomStep channel) s

def isRandom (channel : Option (PauliChannel R)) : Instruction R → Bool
  | .gate _ => false
  | .noise _ => channel.isSome
  | .reset _ => true

end Instruction

def Circuit.run [EigenSolver R] (c : Circuit R) (channel : Option (PauliChannel R)) (s : State R) :
    Sampler R (State R) := do
  let instructions ← liftM (c.prepare s)
  Instruction.run channel instructions s

end QuantumCircuits
