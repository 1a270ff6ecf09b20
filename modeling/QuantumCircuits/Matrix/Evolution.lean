import QuantumCircuits.Matrix.Dense

/-! Spectra of Hermitian matrices and the unitary evolutions that they generate. -/

namespace QuantumCircuits

structure Spectrum (R : Type) where
  values : List R
  vectors : DenseMatrix (Cx R)

class EigenSolver (R : Type) where
  spectrum : DenseMatrix (Cx R) → Spectrum R

namespace DenseMatrix

variable {R : Type} [Scalar R] [EigenSolver R]

/-- `exp (-i H time)` for a Hermitian matrix `H`. A diagonal matrix is exponentiated entry by entry
from its real parts, any other one through its spectrum. -/
def evolution (h : DenseMatrix (Cx R)) (time : R) : DenseMatrix (Cx R) :=
  if h.isDiagonal then
    diagonal (h.diagonalEntries.map fun a => Cx.cis (-a.re * time))
  else
    let s := EigenSolver.spectrum h
    s.vectors * diagonal (s.values.map fun v => Cx.cis (-v * time)) * s.vectors.adjoint

end DenseMatrix
end QuantumCircuits
