import QuantumCircuits.Circuit.Adjoint
import QuantumCircuits.Circuit.Binding
import QuantumCircuits.Circuit.Equality

/-! Building, joining, inverting and binding circuits. -/

namespace QuantumCircuits

namespace Step

variable {R : Type}

def gate (g : Gate R) (wires : List Nat) : Step (Operation R) := ⟨.primitive g, wires⟩

def fixed (g : FixedGate) (wires : List Nat) : Step (Operation R) := gate (.fixed g) wires

end Step

namespace Circuit

variable {R : Type}

def empty (name : String) : Circuit R := ⟨name, .empty, []⟩

def addRegister (c : Circuit R) (name : String) (size : Nat) :
    Except Fault (Register × Circuit R) := do
  let (r, layout) ← c.layout.add name size
  return (r, { c with layout })

def checkWires (o : Operation R) (total : Nat) : List Nat → List Nat → Except Fault Unit
  | _, [] => .ok ()
  | seen, w :: ws =>
    if total ≤ w then .error (.wireRange w total)
    else if seen.contains w then .error (.repeatedWire w o.name)
    else checkWires o total (w :: seen) ws

def checkStep (total : Nat) (s : Step (Operation R)) : Except Fault Unit :=
  if s.wires.length ≠ s.operation.arity then
    .error (.arity s.operation.name s.operation.arity s.wires.length)
  else checkWires s.operation total [] s.wires

def appendAll (c : Circuit R) (steps : List (Step (Operation R))) : Except Fault (Circuit R) := do
  forM steps (checkStep c.wires)
  return { c with steps := c.steps ++ steps }

def append (c : Circuit R) (o : Operation R) (wires : List Nat) : Except Fault (Circuit R) :=
  c.appendAll [⟨o, wires⟩]

def gate (c : Circuit R) (g : Gate R) (wires : List Nat) : Except Fault (Circuit R) :=
  c.append (.primitive g) wires

def compose (c d : Circuit R) : Circuit R where
  name := c.name ++ "+" ++ d.name
  layout := c.layout.append d.layout
  steps := c.steps ++ d.steps.map fun s => { s with wires := s.wires.map (· + c.wires) }

def extend (c d : Circuit R) : Except Fault (Circuit R) :=
  if c.layout.agrees d.layout then .ok { c with steps := c.steps ++ d.steps }
  else .error (.layouts c.name c.wires d.name d.wires)

def tokens (c : Circuit R) : List String :=
  sortedNames (Operation.stepTokenNames c.steps)

def isSymbolic (c : Circuit R) : Bool := Operation.stepsSymbolic c.steps

variable [Scalar R]

def inverse (c : Circuit R) : Except Fault (Circuit R) := do
  return ⟨c.name ++ "_dg", c.layout, ← Operation.adjointSteps [] c.steps⟩

def bind (c : Circuit R) (b : Bindings R) : Except Fault (Circuit R) := do
  return { c with steps := ← Operation.bindSteps b c.steps }

instance : BEq (Circuit R) :=
  ⟨fun c d => c.name == d.name && c.layout == d.layout && Operation.sameSteps c.steps d.steps⟩

def wiresText (wires : List Nat) : String :=
  "[" ++ String.intercalate ", " (wires.map toString) ++ "]"

def text [DecimalText R] (c : Circuit R) : String :=
  let registers := String.intercalate ", " (c.layout.registers.map Register.text)
  let lines := c.steps.map fun s =>
    "  " ++ s.operation.text ++ " " ++ wiresText s.wires ++ "\n"
  c.name ++ " (" ++ registers ++ ")\n" ++ String.join lines

end Circuit
end QuantumCircuits
