import QuantumCircuits.Fault

/-! Named blocks of wires, and the layout of a circuit as a row of such blocks. -/

namespace QuantumCircuits

structure Register where
  name : String
  size : Nat
  offset : Nat
deriving DecidableEq, Repr

namespace Register

def wire (r : Register) (i : Nat) : Nat := r.offset + i

def wires (r : Register) : List Nat := List.range' r.offset r.size

def shift (r : Register) (distance : Nat) : Register :=
  { r with offset := r.offset + distance }

def text (r : Register) : String := s!"{r.name}[{r.size}]"

theorem mem_wires {r : Register} {w : Nat} :
    w ∈ r.wires ↔ r.offset ≤ w ∧ w < r.offset + r.size := by
  simp [wires, List.mem_range']
  constructor
  · rintro ⟨i, hi, rfl⟩
    omega
  · intro h
    exact ⟨w - r.offset, by omega, by omega⟩

end Register

structure Layout where
  registers : List Register
  wires : Nat
deriving DecidableEq, Repr

namespace Layout

def empty : Layout := ⟨[], 0⟩

def add (l : Layout) (name : String) (size : Nat) : Except Fault (Register × Layout) :=
  if size = 0 then .error (.emptyRegister name)
  else
    let r : Register := ⟨name, size, l.wires⟩
    .ok (r, ⟨l.registers ++ [r], l.wires + size⟩)

def find? (l : Layout) (name : String) : Option Register :=
  l.registers.find? fun r => r.name == name

def append (l m : Layout) : Layout :=
  ⟨l.registers ++ m.registers.map (·.shift l.wires), l.wires + m.wires⟩

def sizes (l : Layout) : List Nat := l.registers.map Register.size

def agrees (l m : Layout) : Bool := l.sizes == m.sizes && l.wires == m.wires

end Layout
end QuantumCircuits
