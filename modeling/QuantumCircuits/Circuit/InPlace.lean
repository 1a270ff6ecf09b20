import QuantumCircuits.Circuit.Basic

/-! Circuits that are changed in place. What a call has done to the circuit by the time it fails
stays done. -/

namespace QuantumCircuits.Circuit

/-- A call that changes a circuit, and may fail on the way. -/
abbrev Edit (R α : Type) := ExceptT Fault (StateM (Circuit R)) α

namespace Edit

variable {R : Type}

def addRegister (name : String) (size : Nat) : Edit R Register := do
  if size = 0 then throw (.emptyRegister name)
  let r : Register := ⟨name, size, (← get).wires⟩
  modify fun c => { c with layout := { c.layout with wires := c.layout.wires + size } }
  modify fun c => { c with layout := { c.layout with registers := c.layout.registers ++ [r] } }
  return r

def checkWire (o : Operation R) (wires : List Nat) (w i : Nat) : Edit R Unit := do
  let c ← get
  if c.wires ≤ w then throw (.wireRange w c.wires)
  if (wires.take i).contains w then throw (.repeatedWire w o.name)

def append (o : Operation R) (wires : List Nat) : Edit R Unit := do
  if wires.length ≠ o.arity then throw (.arity o.name o.arity wires.length)
  wires.zipIdx.forM fun (w, i) => checkWire o wires w i
  modify fun c => { c with steps := c.steps ++ [⟨o, wires⟩] }

/-- A gate goes through its constructor first. -/
def gate (g : Except Fault (Gate R)) (wires : List Nat) : Edit R Unit := do
  append (.primitive (← g)) wires

def extend (d : Circuit R) : Edit R Unit := do
  let c ← get
  if !c.layout.agrees d.layout then throw (.layouts c.name c.wires d.name d.wires)
  modify fun c => { c with steps := c.steps ++ d.steps }

end Edit
end QuantumCircuits.Circuit
