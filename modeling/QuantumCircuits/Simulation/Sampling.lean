import QuantumCircuits.Simulation.Histogram
import QuantumCircuits.Simulation.Trajectory

/-! Repeated measurement of all wires. -/

namespace QuantumCircuits

variable {R : Type} [Scalar R]

namespace State

def measurement (s : State R) : Except Fault (WeightedChoice R) :=
  (WeightedChoice.ofWeights s.probabilities).mapError fun fault => .state (.weights fault)

end State

def Sampler.times {α : Type} (draw : Sampler R α) : Nat → List α → Sampler R (List α)
  | 0, done => return done
  | n + 1, done => do times draw n ((← draw) :: done)

/-- Measures all wires a number of times. A circuit whose instructions take no draws is evolved
once and its final distribution is sampled; otherwise every shot runs its own trajectory. -/
def Circuit.sample [EigenSolver R] (c : Circuit R) (channel : Option (PauliChannel R))
    (s : State R) (shots : Nat) : Sampler R Histogram := do
  let instructions ← liftM (c.prepare s)
  let outcomes ←
    if instructions.any (Instruction.isRandom channel) then
      let shot : Sampler R Nat := do
        let final ← Instruction.run channel instructions s
        let choice ← liftM final.measurement
        choice.sample
      shot.times shots []
    else
      let final ← Instruction.run channel instructions s
      let choice ← liftM final.measurement
      choice.sample.times shots []
  return .ofOccurrences c.wires (outcomes.map (·, 1))

end QuantumCircuits
