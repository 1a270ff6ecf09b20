import QuantumCircuits.Simulation.Instruction

/-! Exact evolution of a state vector by a circuit without resets. -/

namespace QuantumCircuits

variable {R : Type} [Scalar R]

/-- One instruction without randomness: noise markers do nothing and resets are refused. -/
def Instruction.exactStep (s : State R) : Instruction R → Except Fault (State R)
  | .gate p => .ok (p.apply s)
  | .noise _ => .ok s
  | .reset _ => .error (.notUnitary "reset")

variable [EigenSolver R]

def Circuit.prepare (c : Circuit R) (s : State R) : Except Fault (List (Instruction R)) :=
  if s.qubits ≠ c.wires then .error (.state (.circuitSize s.qubits c.wires))
  else
    match c.tokens with
    | token :: _ => .error (.unbound token)
    | [] => Instruction.ofCircuit c

def Circuit.statevector (c : Circuit R) (s : State R) : Except Fault (State R) := do
  (← c.prepare s).foldlM Instruction.exactStep s

end QuantumCircuits
