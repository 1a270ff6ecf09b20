import QuantumCircuits.Fault

/-! Required values of control wires. As text, the last character belongs to the first control. -/

namespace QuantumCircuits

/-- Flag `j` is the value that control `j` must read. -/
structure ControlState where
  flags : List Bool
deriving DecidableEq, Repr

namespace ControlState

def allSet (n : Nat) : ControlState := ⟨List.replicate n true⟩

def ofBits (bits : UInt64) (n : Nat) : ControlState :=
  ⟨(List.range n).map bits.toNat.testBit⟩

def length (s : ControlState) : Nat := s.flags.length

def digit (flag : Bool) : Char := if flag then '1' else '0'

def flag? : Char → Option Bool
  | '0' => some false
  | '1' => some true
  | _ => none

def parse (text : String) : Except Fault ControlState :=
  match text.toList.reverse.mapM flag? with
  | some flags => .ok ⟨flags⟩
  | none => .error (.controlText text)

def text (s : ControlState) : String := String.ofList (s.flags.reverse.map digit)

end ControlState
end QuantumCircuits
