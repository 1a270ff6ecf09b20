import QuantumCircuits.Simulation.Sampling

/-! Compression of blocks of qubits from a random source. The transmitter turns every wire into the
eigenbasis of the mean state of the source and sorts basis states by weight, so that the typical
ones land on the lowest wires. Only those wires are sent; the receiver resets the others and undoes
the transmitter. -/

namespace QuantumCircuits

/-- A pure qubit state by its polar and azimuthal angle, and the probability of emitting it. -/
structure SourceState (R : Type) where
  theta : R
  phi : R
  probability : R

structure Compressor (R : Type) where
  ensemble : List (SourceState R)
  blockSize : Nat
  compressedSize : Nat
  entropy : R
  density : DenseMatrix (Cx R)
  source : Circuit R
  transmitter : Circuit R
  channel : Circuit R
  receiver : Circuit R

namespace SourceState

variable {R : Type} [Scalar R]

def amplitudes (s : SourceState R) : Cx R × Cx R :=
  (.ofReal (Scalar.cos (Scalar.half s.theta)), .polar (Scalar.sin (Scalar.half s.theta)) s.phi)

def amplitude (s : SourceState R) (bit : Nat) : Cx R :=
  if bit = 0 then s.amplitudes.1 else s.amplitudes.2

end SourceState

namespace Compressor

variable {R : Type} [Scalar R]

def meanState (ensemble : List (SourceState R)) : DenseMatrix (Cx R) :=
  DenseMatrix.ofFn 2 2 fun i j => ensemble.foldl
    (fun sum s => sum + (s.amplitude i * (s.amplitude j).conj).scale s.probability) 0

def checkEnsemble [DecimalText R] (ensemble : List (SourceState R)) : Except Fault Unit :=
  let total := Scalar.sum (ensemble.map SourceState.probability)
  if ensemble.any (fun s => decide (s.probability < 0)) ||
      decide (Scalar.tolerance < Scalar.magnitude (total - 1)) then
    .error (.state (.ensembleTotal (DecimalText.shortest total)))
  else .ok ()

def entropyOf (values : List R) : R :=
  -Scalar.sum ((values.filter fun p => decide (Scalar.tolerance < p)).map fun p =>
    p * Scalar.log2 p)

/-- The adjoint of the matrix of eigenvectors with the one of the larger eigenvalue in front. -/
def basisChange (s : Spectrum R) : DenseMatrix (Cx R) :=
  let swap := !decide (s.values.getD 1 0 ≤ s.values.getD 0 0)
  (DenseMatrix.ofFn 2 2 fun i j => s.vectors.get i (if swap then 1 - j else j)).adjoint

def weight (n index : Nat) : Nat := (List.range n).countP index.testBit

/-- Basis states by ascending weight, those of one weight in ascending order. -/
def weightOrder (n : Nat) : List Nat :=
  (Basis.indices n).mergeSort fun a b => decide (weight n a ≤ weight n b)

/-- The permutation that sends the basis state at place `k` of the order to basis state `k`. -/
def weightSorting (n : Nat) : DenseMatrix (Cx R) :=
  let order := (weightOrder n).toArray
  DenseMatrix.ofFn order.size order.size fun k j => if order[k]? = some j then 1 else 0

def thetaFamily (n : Nat) : ParamFamily := ⟨"theta", n⟩

def phiFamily (n : Nat) : ParamFamily := ⟨"phi", n⟩

def noiseFamily (m : Nat) : ParamFamily := ⟨"noise", m⟩

def buildSource (n : Nat) : Except Fault (Circuit R) := do
  let (q, circuit) ← (Circuit.empty "source").addRegister "q" n
  circuit.appendAll <| q.wires.flatMap fun i =>
    [.gate (.ry ((thetaFamily n).get i)) [i], .gate (.rz ((phiFamily n).get i)) [i]]

def buildTransmitter (n : Nat) (change : DenseMatrix (Cx R)) : Except Fault (Circuit R) := do
  let (q, circuit) ← (Circuit.empty "tx").addRegister "q" n
  let basis ← Gate.ofUnitary "basis" change
  let circuit ← circuit.appendAll (q.wires.map fun i => .gate basis [i])
  circuit.gate (← Gate.ofUnitary "perm" (weightSorting n)) q.wires

def buildChannel (n m : Nat) : Except Fault (Circuit R) := do
  let (_, circuit) ← (Circuit.empty "channel").addRegister "q" n
  circuit.appendAll ((List.range m).map fun i => .gate (.rx ((noiseFamily m).get i)) [i])

def buildReceiver (n m : Nat) (transmitter : Circuit R) : Except Fault (Circuit R) := do
  let (q, circuit) ← (Circuit.empty "rx").addRegister "q" n
  let circuit ← circuit.appendAll ((List.range' m (n - m)).map fun i => .gate .reset [i])
  circuit.append (← (Operation.composite transmitter).inverse) q.wires

/-- Compression of blocks of `n` states of an ensemble into as many wires as the entropy of the
block needs, rounded up. -/
def ofEnsemble [EigenSolver R] [DecimalText R] (ensemble : List (SourceState R)) (n : Nat) :
    Except Fault (Compressor R) := do
  if ensemble.isEmpty || n = 0 then throw (.state .emptyCompression)
  checkEnsemble ensemble
  let density := meanState ensemble
  let spectrum := EigenSolver.spectrum density
  let entropy := entropyOf spectrum.values
  let m := min (Scalar.ceilNat (entropy * ((n : Nat) : R) - Scalar.tolerance)) n
  let source ← buildSource n
  let transmitter ← buildTransmitter n (basisChange spectrum)
  let channel ← buildChannel n m
  let receiver ← buildReceiver n m transmitter
  return {
    ensemble, blockSize := n, compressedSize := m, entropy, density, source, transmitter,
    channel, receiver }

def circuit (c : Compressor R) : Except Fault (Circuit R) := do
  let (_, circuit) ← (Circuit.empty "compression").addRegister "q" c.blockSize
  [c.source, c.transmitter, c.channel, c.receiver].foldlM Circuit.extend circuit

def trial [EigenSolver R] (c : Compressor R) (whole : Circuit R) (choice : WeightedChoice R)
    (flip : R) : Sampler R R := do
  let states ← (List.range c.blockSize).mapM fun _ => do
    return c.ensemble[← choice.sample]?
  let flips ← (List.range c.compressedSize).mapM fun _ => do
    return if (← Sampler.drawUnit) < flip then Scalar.pi else (0 : R)
  let angles (angle : SourceState R → R) : List R := states.map fun s => (s.map angle).getD 0
  let b ← liftM (Bindings.empty.insertFamily (thetaFamily c.blockSize) (angles SourceState.theta))
  let b ← liftM (b.insertFamily (phiFamily c.blockSize) (angles SourceState.phi))
  let b ← liftM (b.insertFamily (noiseFamily c.compressedSize) flips)
  let blank : State R := .zero c.blockSize
  let sent ← liftM (do (← c.source.bind b).statevector blank)
  let received ← (← liftM (whole.bind b)).run none blank
  liftM (sent.fidelity received)

def simulate [EigenSolver R] [DecimalText R] (c : Compressor R) (trials : Nat) (flip : R) :
    Sampler R (List R) := do
  if !Scalar.inUnit flip then
    throw (.state (.flipProbability (DecimalText.shortest flip)))
  let choice ← liftM <|
    (WeightedChoice.ofWeights (c.ensemble.map SourceState.probability)).mapError
      fun fault => Fault.state (.weights fault)
  let whole ← liftM c.circuit
  (List.range trials).mapM fun _ => c.trial whole choice flip

end Compressor
end QuantumCircuits
