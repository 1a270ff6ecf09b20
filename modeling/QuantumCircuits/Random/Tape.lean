import QuantumCircuits.Number.Binary64
import QuantumCircuits.Random.DrawSource

/-! Sources of draws that repeat given fractions. -/

namespace QuantumCircuits.DrawSource

def wordOfFraction (x : Float) : UInt64 :=
  let places : UInt64 := (x * 9007199254740992).floor.toUInt64
  places <<< 11

def ofFractions (xs : List Float) : DrawSource Float := cycling (xs.map wordOfFraction).toArray

end QuantumCircuits.DrawSource
