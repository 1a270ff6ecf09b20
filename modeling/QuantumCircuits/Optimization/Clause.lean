import QuantumCircuits.Fault
import QuantumCircuits.Number.Scalar

/-! Weighted clauses over binary variables. -/

namespace QuantumCircuits

/-- A pattern that fixes some variables, and the weight of satisfying it. -/
structure Clause (R : Type) where
  pattern : List (Option Bool)
  weight : R

namespace Clause

variable {R : Type}

def symbol? : Char → Option (Option Bool)
  | '0' => some (some false)
  | '1' => some (some true)
  | 'X' | 'x' => some none
  | _ => none

def symbol : Option Bool → Char
  | some false => '0'
  | some true => '1'
  | none => 'X'

/-- Reads one symbol for each variable: its value, or a cross if either value will do. -/
def parse (text : String) (weight : R) : Except Fault (Clause R) :=
  match text.toList.mapM symbol? with
  | some pattern => .ok ⟨pattern, weight⟩
  | none => .error (.state (.clauseText text))

def text (c : Clause R) : String := String.ofList (c.pattern.map symbol)

def length (c : Clause R) : Nat := c.pattern.length

def satisfied (c : Clause R) (values : List Bool) : Bool :=
  (c.pattern.zip values).all fun (p, v) => p.all (· == v)

/-- A clause of weight one that fixes the two ends of an edge, the second end last. -/
def ofEdge [One R] (vertices : Nat) (a b : Nat) (left right : Bool) : Clause R :=
  ⟨((List.replicate vertices none).set a (some left)).set b (some right), 1⟩

def maxCut? [One R] (vertices : Nat) (edges : List (Nat × Nat)) : Option (List (Clause R)) :=
  if edges.all fun (a, b) => a < vertices && b < vertices then
    some <| edges.flatMap fun (a, b) =>
      [ofEdge vertices a b false true, ofEdge vertices a b true false]
  else none

end Clause
end QuantumCircuits
