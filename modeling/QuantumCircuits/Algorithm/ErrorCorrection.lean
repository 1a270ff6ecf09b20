import QuantumCircuits.Circuit.Basic
import QuantumCircuits.State

/-! Error-correcting codes over a code register and a syndrome register. The parts of a code are
circuits over one layout, so that any channel over that layout can stand between them. -/

namespace QuantumCircuits

variable {R : Type} [Scalar R]

structure ErrorCorrection (R : Type) where
  code : Register
  syndrome : Register
  logicalWire : Nat
  encoder : Circuit R
  noiseLayer : Circuit R
  extraction : Circuit R
  correction : Circuit R
  decoder : Circuit R

namespace ErrorCorrection

def layout (name : String) (codeSize syndromeSize : Nat) :
    Except Fault (Register × Register × Circuit R) := do
  let (code, circuit) ← (Circuit.empty name).addRegister "code" codeSize
  let (syndrome, circuit) ← circuit.addRegister "syndrome" syndromeSize
  return (code, syndrome, circuit)

def wires (e : ErrorCorrection R) : Nat := e.code.size + e.syndrome.size

def blank (e : ErrorCorrection R) (name : String) : Except Fault (Circuit R) := do
  let (_, _, circuit) ← layout name e.code.size e.syndrome.size
  return circuit

def withChannel (e : ErrorCorrection R) (channel : Circuit R) : Except Fault (Circuit R) := do
  let parts := [e.encoder, channel, e.extraction, e.correction, e.decoder]
  parts.foldlM Circuit.extend (← e.blank "qec")

def uncorrected (e : ErrorCorrection R) (channel : Circuit R) : Except Fault (Circuit R) := do
  [e.encoder, channel, e.decoder].foldlM Circuit.extend (← e.blank "uncorrected")

def circuit (e : ErrorCorrection R) : Except Fault (Circuit R) := e.withChannel e.noiseLayer

def assemble (code syndrome : Register) (logicalWire : Nat)
    (encoder extraction correction : Circuit R) : Except Fault (ErrorCorrection R) := do
  let (_, _, noise) ← layout "noise" code.size syndrome.size
  let noiseLayer ← noise.appendAll (code.wires.map fun w => .gate .noise [w])
  let decoder ← encoder.inverse
  return { code, syndrome, logicalWire, encoder, noiseLayer, extraction, correction, decoder }

def checkSize (e : ErrorCorrection R) (s : State R) : Except Fault Unit :=
  if s.qubits = e.wires then .ok () else .error (.state (.codeSize s.qubits e.wires))

/-- Fidelity of the code register of an output with that of a reference, summed over the states of
the syndrome register. The reference is read where the syndrome is zero. -/
def logicalFidelity (e : ErrorCorrection R) (reference output : State R) : Except Fault R := do
  e.checkSize reference
  e.checkSize output
  let expected := reference.slice e.code.wires 0
  let parts := (Basis.indices e.syndrome.size).map fun rest =>
    (Cx.innerProduct expected (output.slice e.code.wires rest)).normSq
  return Scalar.sum parts

def hadamards (r : Register) : List (Step (Operation R)) :=
  r.wires.map fun w => .fixed .h [w]

/-- The bit-flip repetition code. The logical state is on code wire 0, and any one X error on the
code register is corrected. -/
def threeQubit : Except Fault (ErrorCorrection R) := do
  let (code, syndrome, encoder) ← layout "encoder" 3 2
  let encoder ← encoder.appendAll
    [.fixed .cx [code.wire 0, code.wire 1], .fixed .cx [code.wire 0, code.wire 2]]
  let (_, _, extraction) ← layout "syndrome" 3 2
  let checks := [(1, 2), (1, 1), (0, 1), (0, 0)].map fun (s, c) =>
    .fixed .cz [syndrome.wire s, code.wire c]
  let extraction ← extraction.appendAll (hadamards syndrome ++ checks ++ hadamards syndrome)
  let (_, _, correction) ← layout "correction" 3 2
  let flips ← [(2, 2), (3, 1), (1, 0)].mapM fun (value, target) => do
    let flip ← (Operation.primitive (.fixed .x)).control 2 (.ofBits value 2)
    return ⟨flip, syndrome.wires ++ [code.wire target]⟩
  let correction ← correction.appendAll flips
  assemble code syndrome (code.wire 0) encoder extraction correction

def fiveQubitEncoder : List (FixedGate × List Nat) :=
  [(.z, [4]), (.h, [4]), (.z, [4]), (.cx, [4, 3]), (.h, [4]), (.h, [3]), (.cx, [4, 2]),
    (.cx, [3, 2]), (.h, [2]), (.cx, [4, 1]), (.cx, [2, 1]), (.h, [1]), (.h, [4]), (.cx, [4, 0]),
    (.cx, [3, 0]), (.cx, [2, 0]), (.h, [3]), (.h, [4])]

def fiveQubitChecks : List (Nat × FixedGate × Nat) :=
  [(0, .cz, 4), (0, .cx, 3), (0, .cx, 2), (0, .cz, 1),
    (1, .cx, 4), (1, .cx, 3), (1, .cz, 2), (1, .cz, 0),
    (2, .cx, 4), (2, .cz, 3), (2, .cz, 1), (2, .cx, 0),
    (3, .cz, 4), (3, .cz, 2), (3, .cx, 1), (3, .cx, 0)]

/-- Corrections of the five-qubit code: a gate on a code wire for each syndrome, which is written
with its highest wire first. -/
def fiveQubitCorrections : List (FixedGate × String × Nat) :=
  [(.x, "0010", 0), (.y, "1110", 0), (.z, "1100", 0),
    (.x, "0101", 1), (.y, "1101", 1), (.z, "1000", 1),
    (.x, "1010", 2), (.y, "1011", 2), (.z, "0001", 2),
    (.x, "0100", 3), (.y, "0111", 3), (.z, "0011", 3),
    (.x, "1001", 4), (.y, "1111", 4), (.z, "0110", 4)]

/-- The perfect code on five wires. The logical state is on code wire 4, and any one-wire Pauli
error on the code register is corrected. -/
def fiveQubit : Except Fault (ErrorCorrection R) := do
  let (code, syndrome, encoder) ← layout "encoder" 5 4
  let encoder ← encoder.appendAll (fiveQubitEncoder.map fun (g, ws) => .fixed g (ws.map code.wire))
  let (_, _, extraction) ← layout "syndrome" 5 4
  let checks := fiveQubitChecks.map fun (s, g, c) => .fixed g [syndrome.wire s, code.wire c]
  let extraction ← extraction.appendAll (hadamards syndrome ++ checks ++ hadamards syndrome)
  let (_, _, correction) ← layout "correction" 5 4
  let fixes ← fiveQubitCorrections.mapM fun (g, text, target) => do
    let fix ← (Operation.primitive (.fixed g)).control 4 (← ControlState.parse text)
    return ⟨fix, syndrome.wires ++ [code.wire target]⟩
  let correction ← correction.appendAll fixes
  assemble code syndrome (code.wire 4) encoder extraction correction

end ErrorCorrection
end QuantumCircuits
