import QuantumCircuits.Basis
import QuantumCircuits.Fault
import QuantumCircuits.Number.InnerProduct

/-! State vectors: an amplitude for each basis state of a number of qubits. -/

namespace QuantumCircuits

structure State (R : Type) where
  qubits : Nat
  amplitudes : Vector (Cx R) (2 ^ qubits)

namespace State

variable {R : Type} [Scalar R]

def ofFn (qubits : Nat) (amplitude : Nat → Cx R) : State R :=
  ⟨qubits, Vector.ofFn fun i => amplitude i⟩

def amplitude? (s : State R) (index : Nat) : Option (Cx R) := s.amplitudes[index]?

def amp (s : State R) (index : Nat) : Cx R := (s.amplitude? index).getD 0

theorem amp_ofFn (qubits : Nat) (amplitude : Nat → Cx R) {i : Nat} (h : i < 2 ^ qubits) :
    (ofFn qubits amplitude).amp i = amplitude i := by
  change ((Vector.ofFn fun k : Fin (2 ^ qubits) => amplitude k)[i]?).getD 0 = amplitude i
  rw [Vector.getElem?_ofFn, dif_pos h, Option.getD_some]

theorem ext_amp {s t : State R} (hq : s.qubits = t.qubits)
    (h : ∀ i < 2 ^ s.qubits, s.amp i = t.amp i) : s = t := by
  obtain ⟨n, v⟩ := s
  obtain ⟨m, w⟩ := t
  obtain rfl : n = m := hq
  congr 1
  apply Vector.ext
  intro i hi
  simpa [amp, amplitude?, hi] using h i hi

def toList (s : State R) : List (Cx R) := s.amplitudes.toList

def ofList (amplitudes : List (Cx R)) : Except Fault (State R) :=
  let entries := amplitudes.toArray
  match Basis.wires? entries.size with
  | some qubits => .ok (ofFn qubits fun i => entries.getD i 0)
  | none => .error (.state .amplitudeCount)

def normalized (amplitudes : List R) : Except Fault (State R) :=
  let length := Scalar.sqrt (Scalar.sum (amplitudes.map fun a => a * a))
  if length == 0 then .error (.state .zeroVector)
  else ofList (amplitudes.map fun a => .ofReal (a / length))

def basis (qubits index : Nat) : State R :=
  ofFn qubits fun i => if i = index then 1 else 0

def zero (qubits : Nat) : State R := basis qubits 0

/-- The number of qubits that a requested width stands for. Of a width only the low 32 bits
count. -/
def qubitsOfWidth (width : Nat) : Nat := width % UInt32.size

theorem qubitsOfWidth_eq {width : Nat} (h : width < UInt32.size) : qubitsOfWidth width = width :=
  Nat.mod_eq_of_lt h

def zeroOfWidth (width : Nat) : State R := zero (qubitsOfWidth width)

theorem zeroOfWidth_eq_zero {width : Nat} (h : width < UInt32.size) : (zeroOfWidth width : State R) = zero width := by
  rw [zeroOfWidth, qubitsOfWidth_eq h]

def digit? : Char → Option Nat
  | '0' => some 0
  | '1' => some 1
  | _ => none

def readDigits (value : Nat) : List Char → Except NumeralFault Nat
  | [] => .ok value
  | c :: cs =>
    match digit? c with
    | none => .error .invalidDigit
    | some digit =>
      if 2 * value + digit < UInt64.size then readDigits (2 * value + digit) cs
      else .error .tooLarge

def readNumeral (text : String) : Except NumeralFault Nat :=
  match text.toList with
  | [] => .error .empty
  | [_] => readDigits 0 text.toList
  | '+' :: cs => readDigits 0 cs
  | cs => readDigits 0 cs

/-- The basis state of a numeral with one wire for each byte of its text, highest wire first. -/
def ofLabel (text : String) : Except Fault (State R) :=
  match readNumeral text with
  | .ok index => .ok (basis text.utf8ByteSize index)
  | .error fault => .error (.state (.numeral text fault))

def extend (s : State R) (qubits : Nat) : State R := ofFn qubits fun i => s.amp i

/-- Puts the state on the lowest wires of a larger register whose other wires read zero. -/
def embed (s : State R) (qubits : Nat) : Except Fault (State R) :=
  if qubits < s.qubits then .error (.state (.embedding s.qubits qubits))
  else .ok (s.extend qubits)

/-- Puts the state on the lowest wires of a register of a requested width. The whole width is
compared with the size of the state. -/
def embedInWidth (s : State R) (width : Nat) : Except Fault (State R) :=
  if width < s.qubits then .error (.state (.embedding s.qubits width))
  else .ok (s.extend (qubitsOfWidth width))

theorem embedInWidth_eq_embed (s : State R) {width : Nat} (h : width < UInt32.size) :
    s.embedInWidth width = s.embed width := by
  rw [embedInWidth, embed, qubitsOfWidth_eq h]

def probabilities (s : State R) : List R := s.toList.map Cx.normSq

def norm (s : State R) : R := Cx.length s.toList

def fidelity (s t : State R) : Except Fault R :=
  if s.qubits = t.qubits then .ok (Cx.laneProduct s.toList t.toList).normSq
  else .error (.state (.comparison s.qubits t.qubits))

/-- The index that reads `bits` on the listed wires and `rest` on the other wires, which are taken
in ascending order. -/
def sliceIndex (qubits : Nat) (wires : List Nat) (rest bits : Nat) : Nat :=
  Basis.scatter rest (Basis.others qubits wires) ||| Basis.scatter bits wires

def slice (s : State R) (wires : List Nat) (rest : Nat) : List (Cx R) :=
  (Basis.indices wires.length).map fun bits => s.amp (sliceIndex s.qubits wires rest bits)

def text [DecimalText R] (s : State R) : String :=
  String.join <| s.toList.zipIdx.map fun (a, i) =>
    "|" ++ Basis.label s.qubits i ++ ">: " ++ a.text ++ "\n"

end State
end QuantumCircuits
