import QuantumCircuits.Circuit.ControlState
import QuantumCircuits.Circuit.Layout
import QuantumCircuits.Gate.Basic

/-! Circuits and the operations they are made of. An operation is a gate, a closed circuit, or an
operation under controls, raised to a power or inverted; a circuit is a list of operations on wires
of a layout. A recursion over operations runs side by side with one over steps, and `induct` is the
induction that both follow. -/

namespace QuantumCircuits

structure Step (Op : Type) where
  operation : Op
  wires : List Nat

structure CircuitOf (Op : Type) where
  name : String
  layout : Layout
  steps : List (Step Op)

inductive Operation (R : Type) where
  | primitive (gate : Gate R)
  | composite (body : CircuitOf (Operation R))
  | controlled (inner : Operation R) (state : ControlState)
  | powered (inner : Operation R) (exponent : Nat)
  | inverted (inner : Operation R)

abbrev Circuit (R : Type) := CircuitOf (Operation R)

namespace CircuitOf

variable {Op : Type}

def wires (c : CircuitOf Op) : Nat := c.layout.wires

end CircuitOf

namespace Operation

variable {R : Type}

/-- Induction in which a composite has the property of the operations of all its steps. -/
theorem induct {motive : Operation R → Prop} (primitive : ∀ g, motive (.primitive g))
    (composite : ∀ c : Circuit R, (∀ s ∈ c.steps, motive s.operation) → motive (.composite c))
    (controlled : ∀ o s, motive o → motive (.controlled o s))
    (powered : ∀ o e, motive o → motive (.powered o e))
    (inverted : ∀ o, motive o → motive (.inverted o)) (o : Operation R) : motive o :=
  @Operation.rec R motive (fun c => ∀ s ∈ c.steps, motive s.operation)
    (fun steps => ∀ s ∈ steps, motive s.operation) (fun s => motive s.operation)
    primitive composite controlled powered inverted (fun _ _ _ ih => ih) (by simp)
    (fun head tail hhead htail s hs => by
      rcases List.mem_cons.1 hs with rfl | hs
      · exact hhead
      · exact htail s hs)
    (fun _ _ ih => ih) o

def arity : Operation R → Nat
  | .primitive g => g.arity
  | .composite c => c.wires
  | .controlled o s => o.arity + s.length
  | .powered o _ => o.arity
  | .inverted o => o.arity

def name : Operation R → String
  | .primitive g => g.name
  | .composite c => c.name
  | .controlled o s => if s.length = 1 then "c-" ++ o.name else s!"c{s.length}-" ++ o.name
  | .powered o e => o.name ++ s!"^{e}"
  | .inverted o => o.name ++ "_dg"

mutual

/-- No reset occurs anywhere inside. -/
def isUnitary : Operation R → Bool
  | .primitive g => g.isUnitary
  | .composite ⟨_, _, steps⟩ => stepsUnitary steps
  | .controlled o _ => o.isUnitary
  | .powered o _ => o.isUnitary
  | .inverted o => o.isUnitary
termination_by structural o => o

def stepsUnitary : List (Step (Operation R)) → Bool
  | [] => true
  | ⟨o, _⟩ :: rest => o.isUnitary && stepsUnitary rest
termination_by structural steps => steps

end

theorem stepsUnitary_eq_all (steps : List (Step (Operation R))) :
    stepsUnitary steps = steps.all fun s => s.operation.isUnitary := by
  induction steps with
  | nil => rfl
  | cons s rest ih =>
    obtain ⟨o, w⟩ := s
    simp [stepsUnitary, ih]

@[simp] theorem isUnitary_composite (c : Circuit R) :
    (Operation.composite c).isUnitary = c.steps.all fun s => s.operation.isUnitary := by
  obtain ⟨name, layout, steps⟩ := c
  exact stepsUnitary_eq_all steps

mutual

def tokenNames : Operation R → List String
  | .primitive g => g.tokenNames
  | .composite ⟨_, _, steps⟩ => stepTokenNames steps
  | .controlled o _ => o.tokenNames
  | .powered o _ => o.tokenNames
  | .inverted o => o.tokenNames
termination_by structural o => o

def stepTokenNames : List (Step (Operation R)) → List String
  | [] => []
  | ⟨o, _⟩ :: rest => o.tokenNames ++ stepTokenNames rest
termination_by structural steps => steps

end

theorem stepTokenNames_eq_flatMap (steps : List (Step (Operation R))) :
    stepTokenNames steps = steps.flatMap fun s => s.operation.tokenNames := by
  induction steps with
  | nil => rfl
  | cons s rest ih =>
    obtain ⟨o, w⟩ := s
    simp [stepTokenNames, ih]

@[simp] theorem tokenNames_composite (c : Circuit R) :
    (Operation.composite c).tokenNames = c.steps.flatMap fun s => s.operation.tokenNames := by
  obtain ⟨name, layout, steps⟩ := c
  exact stepTokenNames_eq_flatMap steps

def tokens (o : Operation R) : List String := sortedNames o.tokenNames

mutual

def isSymbolic : Operation R → Bool
  | .primitive g => g.isSymbolic
  | .composite ⟨_, _, steps⟩ => stepsSymbolic steps
  | .controlled o _ => o.isSymbolic
  | .powered o _ => o.isSymbolic
  | .inverted o => o.isSymbolic
termination_by structural o => o

def stepsSymbolic : List (Step (Operation R)) → Bool
  | [] => false
  | ⟨o, _⟩ :: rest => o.isSymbolic || stepsSymbolic rest
termination_by structural steps => steps

end

/-- Puts the operation under control wires. At least one control is required, the state must have
one flag for each, and no reset may occur inside. -/
def control (o : Operation R) (n : Nat) (s : ControlState) : Except Fault (Operation R) :=
  if n = 0 || s.length != n then .error (.controlCount n s.length)
  else if o.isUnitary then .ok (.controlled o s)
  else .error (.notUnitary o.name)

def power (o : Operation R) (e : Nat) : Except Fault (Operation R) :=
  if e = 0 then .error (.exponent e) else .ok (.powered o e)

def powerOfTwo (o : Operation R) (k : Nat) : Except Fault (Operation R) :=
  if k < 32 then o.power (1 <<< k) else .error (.exponentRange k)

variable [Scalar R]

def text [DecimalText R] : Operation R → String
  | .primitive g => g.text
  | o => o.name

end Operation
end QuantumCircuits
