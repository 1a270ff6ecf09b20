/-! The causes for which building, transforming or running a circuit fails, and their wording. -/

namespace QuantumCircuits

inductive NumeralFault where
  | empty
  | invalidDigit
  | tooLarge
deriving DecidableEq, Repr

inductive MatrixFault where
  | notSquare (rows columns : Nat)
  | systemNotSquare (rows columns : Nat)
  | dimension (size : Nat)
  | notUnitary
  | notHermitian
deriving DecidableEq, Repr

inductive WeightFault where
  | negativeOrUnordered
  | allZero
deriving DecidableEq, Repr

/-- Why a state, or data that a state is made from, cannot be worked with. Numbers that are not
counts appear as their decimal text. -/
inductive StateFault where
  | amplitudeCount
  | zeroVector
  | numeral (text : String) (fault : NumeralFault)
  | embedding (qubits target : Nat)
  | comparison (left right : Nat)
  | circuitSize (qubits wires : Nat)
  | codeSize (qubits wires : Nat)
  | missingRegister (name : String)
  | zeroNormAfterReset
  | weights (fault : WeightFault)
  | valueCount (values : Nat) (family : String) (length : Nat)
  | errorProbability (value : String)
  | flipProbability (value : String)
  | clauseText (text : String)
  | clauseLengths
  | noSamples
  | emptyCompression
  | ensembleTotal (value : String)
deriving DecidableEq, Repr

inductive OptimizationFault where
  | noBestPoint
  | unorderedCosts
  | objective (message : String)
deriving DecidableEq, Repr

inductive Fault where
  | arity (operation : String) (expected got : Nat)
  | wireRange (wire wires : Nat)
  | repeatedWire (wire : Nat) (operation : String)
  | controlCount (expected got : Nat)
  | controlText (text : String)
  | exponent (value : Nat)
  | exponentRange (power : Nat)
  | noAdjoint (gate : String)
  | unbound (token : String)
  | emptyRegister (name : String)
  | layouts (left : String) (leftWires : Nat) (right : String) (rightWires : Nat)
  | matrix (fault : MatrixFault)
  | notUnitary (gate : String)
  | state (fault : StateFault)
  | optimization (fault : OptimizationFault)
deriving DecidableEq, Repr

def NumeralFault.message : NumeralFault → String
  | .empty => "cannot parse integer from empty string"
  | .invalidDigit => "invalid digit found in string"
  | .tooLarge => "number too large to fit in target type"

def MatrixFault.message : MatrixFault → String
  | .notSquare rows columns => s!"expected a square matrix, got {rows}x{columns}"
  | .systemNotSquare rows columns => s!"system matrix is {rows}x{columns}"
  | .dimension size => s!"dimension {size} is not a positive power of two"
  | .notUnitary => "matrix is not unitary"
  | .notHermitian => "Hamiltonian is not Hermitian"

def WeightFault.message : WeightFault → String
  | .negativeOrUnordered => "A weight is negative, too large or not a valid number"
  | .allZero => "Not enough weights > zero"

def StateFault.message : StateFault → String
  | .amplitudeCount => "State vector length must be a non-zero power of 2"
  | .zeroVector => "zero vector"
  | .numeral text fault => "'" ++ text ++ "': " ++ fault.message
  | .embedding qubits target => s!"cannot embed {qubits} qubits into {target}"
  | .comparison left right => s!"cannot compare {left} and {right} qubit states"
  | .circuitSize qubits wires => s!"{qubits} qubit state for a circuit of {wires} wires"
  | .codeSize qubits wires => s!"{qubits} qubit state for a {wires} wire code"
  | .missingRegister name => s!"no register '{name}'"
  | .zeroNormAfterReset => "zero norm after reset"
  | .weights fault => fault.message
  | .valueCount values family length =>
    s!"{values} values supplied for parameter vector '{family}' of length {length}"
  | .errorProbability value => s!"error probability {value} outside [0, 1]"
  | .flipProbability value => s!"bit flip probability {value} outside [0, 1]"
  | .clauseText text => s!"invalid clause '{text}'"
  | .clauseLengths => "clauses must be non-empty and of equal length"
  | .noSamples => "no samples drawn"
  | .emptyCompression => "compression needs a non-empty ensemble and block"
  | .ensembleTotal value => s!"ensemble probabilities sum to {value}"

def OptimizationFault.message : OptimizationFault → String
  | .noBestPoint => "no best parameter found"
  -- Where to report this is left to the search.
  | .unorderedCosts => "Potential bug: \"`NelderMead`: Reached unreachable point.\". This is potentially a bug."
  | .objective message => message

def Fault.message : Fault → String
  | .arity operation expected got =>
    s!"Operation '{operation}' acts on {expected} wires, got {got}"
  | .wireRange wire wires =>
    s!"Wire index {wire} out of range for a circuit of {wires} wires"
  | .repeatedWire wire operation => s!"Wire {wire} used more than once by '{operation}'"
  | .controlCount expected got =>
    s!"Control state has {got} bits but {expected} controls were requested"
  | .controlText text => s!"Invalid control state string '{text}'"
  | .exponent value => s!"Power exponent must be at least 1, got {value}"
  | .exponentRange power => s!"Power exponent 2^{power} does not fit in 32 bits"
  | .noAdjoint gate => s!"Gate '{gate}' has no known adjoint"
  | .unbound token => s!"Parameter '{token}' is unbound"
  | .emptyRegister name => s!"Register '{name}' has no wires"
  | .layouts left leftWires right rightWires =>
    s!"Circuit '{left}' has {leftWires} wires but '{right}' has {rightWires}"
  | .matrix fault => "Invalid matrix: " ++ fault.message
  | .notUnitary gate => s!"Gate '{gate}' is not unitary in this context"
  | .state fault => "Invalid state: " ++ fault.message
  | .optimization fault => "Optimization failed: " ++ fault.message

end QuantumCircuits
