import QuantumCircuits.Gate.Basic
import QuantumCircuits.Random.DrawSource

/-! Channels that act on one wire by a random Pauli gate. -/

namespace QuantumCircuits

inductive PauliChannel.Kind where
  | bitFlip
  | phaseFlip
  | depolarizing
deriving DecidableEq, Repr

/-- A bit flip applies X and a phase flip applies Z with the error probability. A depolarizing
channel applies each of X, Y and Z with a quarter of it. -/
structure PauliChannel (R : Type) where
  kind : PauliChannel.Kind
  probability : R

namespace PauliChannel

variable {R : Type} [Scalar R]

def Kind.name : Kind → String
  | bitFlip => "bit_flip"
  | phaseFlip => "phase_flip"
  | depolarizing => "depolarizing"

def ofProbability [DecimalText R] (kind : Kind) (p : R) : Except Fault (PauliChannel R) :=
  if Scalar.inUnit p then .ok ⟨kind, p⟩
  else .error (.state (.errorProbability (DecimalText.shortest p)))

def error? (channel : PauliChannel R) (draw : R) : Option FixedGate :=
  let p := channel.probability
  match channel.kind with
  | .bitFlip => if draw < p then some .x else none
  | .phaseFlip => if draw < p then some .z else none
  | .depolarizing =>
    let quarter := p / ((4 : Nat) : R)
    if draw < quarter then some .x
    else if draw < Scalar.two * quarter then some .y
    else if draw < ((3 : Nat) : R) * quarter then some .z
    else none

def sampleError (channel : PauliChannel R) : Sampler R (Option FixedGate) :=
  return channel.error? (← Sampler.drawUnit)

def text [DecimalText R] (channel : PauliChannel R) : String :=
  channel.kind.name ++ "(p=" ++ DecimalText.fixed 4 channel.probability ++ ")"

end PauliChannel
end QuantumCircuits
