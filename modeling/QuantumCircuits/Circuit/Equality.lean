import QuantumCircuits.Circuit.Operation

/-! Structural equality of operations. Numbers in parameters and matrices are compared as the scalar
compares them, so an undefined number differs from itself. -/

namespace QuantumCircuits.Operation

variable {R : Type} [Scalar R]

mutual

/-- Structural equality, with numbers compared as the scalar does. -/
def same : Operation R → Operation R → Bool
  | .primitive g, .primitive h => g == h
  | .composite ⟨n, l, s⟩, .composite ⟨m, k, t⟩ => n == m && l == k && sameSteps s t
  | .controlled o s, .controlled p t => o.same p && s == t
  | .powered o e, .powered p f => o.same p && e == f
  | .inverted o, .inverted p => o.same p
  | _, _ => false
termination_by structural o => o

def sameSteps : List (Step (Operation R)) → List (Step (Operation R)) → Bool
  | [], [] => true
  | ⟨o, v⟩ :: s, ⟨p, w⟩ :: t => o.same p && v == w && sameSteps s t
  | _, _ => false
termination_by structural steps => steps

end

instance : BEq (Operation R) := ⟨same⟩

end QuantumCircuits.Operation
