import QuantumCircuits.Circuit.Operation

/-! The two ways to invert an operation: pushing the inversion down to the gates, and wrapping the
operation after a check that every gate inside has an adjoint. -/

namespace QuantumCircuits.Operation

variable {R : Type} [Scalar R]

mutual

/-- The adjoint with inversion pushed down to the gates: the steps of a composite are reversed and
each is replaced by its adjoint, controls and exponents stay, and an inversion is undone. -/
def adjoint : Operation R → Except Fault (Operation R)
  | .primitive g => do return .primitive (← g.adjoint)
  | .composite ⟨name, layout, steps⟩ => do
    return .composite ⟨name ++ "_dg", layout, ← adjointSteps [] steps⟩
  | .controlled o s => do return .controlled (← o.adjoint) s
  | .powered o e => do return .powered (← o.adjoint) e
  | .inverted o => .ok o
termination_by structural o => o

def adjointSteps (done : List (Step (Operation R))) :
    List (Step (Operation R)) → Except Fault (List (Step (Operation R)))
  | [] => .ok done
  | ⟨o, w⟩ :: rest => do adjointSteps (⟨← o.adjoint, w⟩ :: done) rest
termination_by structural steps => steps

end

mutual

def checkInvertible : Operation R → Except Fault Unit
  | .primitive g => do discard g.adjoint
  | .composite ⟨_, _, steps⟩ => checkStepsInvertible steps
  | .controlled o _ => o.checkInvertible
  | .powered o _ => o.checkInvertible
  | .inverted o => o.checkInvertible
termination_by structural o => o

def checkStepsInvertible : List (Step (Operation R)) → Except Fault Unit
  | [] => .ok ()
  | ⟨o, _⟩ :: rest => do
    o.checkInvertible
    checkStepsInvertible rest
termination_by structural steps => steps

end

/-- The inverse, which keeps the operation whole: a gate becomes its adjoint gate, an inversion is
undone, and anything else is wrapped after a check that every gate inside has an adjoint. -/
def inverse : Operation R → Except Fault (Operation R)
  | .primitive g => do return .primitive (← g.adjoint)
  | .inverted o => .ok o
  | o => do
    o.checkInvertible
    return .inverted o

end QuantumCircuits.Operation
