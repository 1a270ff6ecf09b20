import Mathlib
import QuantumCircuits.Matrix.Evolution
import QuantumCircuits.Proofs.Circuit.WellFormed

/-! What is asked of a way to find spectra, and what follows for evolutions: an evolution has the
shape of its Hamiltonian, backwards in time it is the adjoint, and orthonormal eigenvectors make it
unitary. The spectral theorem gives a way that has all of this. -/

namespace QuantumCircuits

/-- The spectrum of a Hermitian matrix has an eigenvalue for each row and a square matrix of
eigenvectors. -/
class SquareSpectra (R : Type) [Scalar R] [EigenSolver R] : Prop where
  values : ∀ h : DenseMatrix (Cx R), h.IsHamiltonian →
    (EigenSolver.spectrum h).values.length = h.rows
  vectors : ∀ h : DenseMatrix (Cx R), h.IsHamiltonian →
    (EigenSolver.spectrum h).vectors.Shaped h.rows h.rows

namespace DenseMatrix

section Shapes

variable {R : Type} [Scalar R]

def phases (values : List R) (time : R) : DenseMatrix (Cx R) :=
  diagonal (values.map fun v => Cx.cis (-v * time))

theorem shaped_phases {values : List R} {d : ℕ} (h : values.length = d) (time : R) :
    (phases values time).Shaped d d := shaped_diagonal ((List.length_map _).trans h)

theorem length_diagonalEntries {h : DenseMatrix (Cx R)} {d : ℕ} (hshape : h.Shaped d d) :
    (h.diagonalEntries.map Cx.re).length = d := by
  rw [List.length_map, diagonalEntries, List.length_map, List.length_range, hshape.rows,
    hshape.columns, min_self]

theorem IsHamiltonian.shaped {h : DenseMatrix (Cx R)} (hh : h.IsHamiltonian) :
    h.Shaped (2 ^ h.wireCount) (2 ^ h.wireCount) := Gate.shaped_of_checkDimension hh.1

variable [EigenSolver R]

theorem evolution_eq (h : DenseMatrix (Cx R)) (time : R) :
    h.evolution time =
      if h.isDiagonal then phases (h.diagonalEntries.map Cx.re) time
      else (EigenSolver.spectrum h).vectors * phases (EigenSolver.spectrum h).values time *
        (EigenSolver.spectrum h).vectors.adjoint := by
  unfold evolution phases
  rw [List.map_map]
  rfl

variable [SquareSpectra R]

theorem IsHamiltonian.length_values {h : DenseMatrix (Cx R)} (hh : h.IsHamiltonian) :
    (EigenSolver.spectrum h).values.length = 2 ^ h.wireCount := by
  rw [SquareSpectra.values h hh, hh.shaped.rows]

theorem IsHamiltonian.shaped_vectors {h : DenseMatrix (Cx R)} (hh : h.IsHamiltonian) :
    (EigenSolver.spectrum h).vectors.Shaped (2 ^ h.wireCount) (2 ^ h.wireCount) := by
  have hvectors := SquareSpectra.vectors h hh
  rwa [hh.shaped.rows] at hvectors

theorem shaped_evolution {h : DenseMatrix (Cx R)} (hh : h.IsHamiltonian) (time : R) :
    (h.evolution time).Shaped (2 ^ h.wireCount) (2 ^ h.wireCount) := by
  rw [evolution_eq]
  split
  · exact shaped_phases (length_diagonalEntries hh.shaped) time
  · have hphases := shaped_phases hh.length_values time
    exact (hh.shaped_vectors.mul hphases).mul hh.shaped_vectors.adjoint

end Shapes

noncomputable section
open Matrix

theorem toMatrix_phases {values : List ℝ} {d : ℕ} (h : values.length = d) (time : ℝ) :
    (phases values time).toMatrix d d =
      Matrix.diagonal fun i : Fin d => Complex.exp (-(values.getD i 0) * time * Complex.I) := by
  rw [phases, toMatrix_diagonal ((List.length_map _).trans h)]
  congr 1
  funext i
  have hi : i.val < values.length := h ▸ i.isLt
  rw [List.getD_eq_getElem _ _ (by rwa [List.length_map]), List.getD_eq_getElem _ _ hi,
    List.getElem_map, Cx.toComplex_cis]
  push_cast
  rfl

theorem toMatrix_phases_neg {values : List ℝ} {d : ℕ} (h : values.length = d) (time : ℝ) :
    (phases values (-time)).toMatrix d d = ((phases values time).toMatrix d d)ᴴ := by
  rw [toMatrix_phases h, toMatrix_phases h, diagonal_conjTranspose]
  congr 1
  funext i
  rw [Pi.star_apply, Complex.star_def, ← Complex.exp_conj]
  simp

theorem toMatrix_phases_mul {values : List ℝ} {d : ℕ} (h : values.length = d) (s t : ℝ) :
    (phases values s).toMatrix d d * (phases values t).toMatrix d d = (phases values (s + t)).toMatrix d d := by
  rw [toMatrix_phases h, toMatrix_phases h, toMatrix_phases h, diagonal_mul_diagonal]
  congr 1
  funext i
  rw [← Complex.exp_add]
  congr 1
  push_cast
  ring

theorem toMatrix_phases_zero {values : List ℝ} {d : ℕ} (h : values.length = d) :
    (phases values 0).toMatrix d d = 1 := by
  rw [toMatrix_phases h, ← diagonal_one]
  congr 1
  funext i
  rw [Complex.ofReal_zero, mul_zero, zero_mul, Complex.exp_zero]

theorem phases_mem_unitary {values : List ℝ} {d : ℕ} (h : values.length = d) (time : ℝ) :
    (phases values time).toMatrix d d ∈ unitaryGroup (Fin d) ℂ := by
  rw [mem_unitaryGroup_iff, star_eq_conjTranspose, ← toMatrix_phases_neg h, toMatrix_phases_mul h, add_neg_cancel,
    toMatrix_phases_zero h]

variable [EigenSolver ℝ] {h : DenseMatrix (Cx ℝ)}

def eigenvectors (h : DenseMatrix (Cx ℝ)) : Matrix (Fin (2 ^ h.wireCount)) (Fin (2 ^ h.wireCount)) ℂ :=
  (EigenSolver.spectrum h).vectors.toMatrix (2 ^ h.wireCount) (2 ^ h.wireCount)

theorem toMatrix_evolution_diagonal (hdiagonal : h.isDiagonal = true) (time : ℝ) :
    (h.evolution time).toMatrix (2 ^ h.wireCount) (2 ^ h.wireCount) =
      (phases (h.diagonalEntries.map Cx.re) time).toMatrix _ _ := by
  rw [evolution_eq, if_pos hdiagonal]

variable [SquareSpectra ℝ]

theorem toMatrix_evolution (hh : h.IsHamiltonian) (hdiagonal : h.isDiagonal = false) (time : ℝ) :
    (h.evolution time).toMatrix (2 ^ h.wireCount) (2 ^ h.wireCount) =
      h.eigenvectors * (phases (EigenSolver.spectrum h).values time).toMatrix _ _ *
        h.eigenvectorsᴴ := by
  have hphases := shaped_phases hh.length_values time
  rw [evolution_eq, hdiagonal, if_neg Bool.false_ne_true,
    toMatrix_mul (hh.shaped_vectors.mul hphases) hh.shaped_vectors.adjoint,
    toMatrix_mul hh.shaped_vectors hphases, toMatrix_adjoint hh.shaped_vectors, eigenvectors]

/-- The basis in which an evolution only turns phases, which is the given one if the matrix is taken for diagonal. -/
def phaseBasis (h : DenseMatrix (Cx ℝ)) : Matrix (Fin (2 ^ h.wireCount)) (Fin (2 ^ h.wireCount)) ℂ :=
  if h.isDiagonal then 1 else h.eigenvectors

def phaseRates (h : DenseMatrix (Cx ℝ)) : List ℝ :=
  if h.isDiagonal then h.diagonalEntries.map Cx.re else (EigenSolver.spectrum h).values

theorem IsHamiltonian.length_phaseRates (hh : h.IsHamiltonian) : h.phaseRates.length = 2 ^ h.wireCount := by
  unfold phaseRates
  split
  · exact length_diagonalEntries hh.shaped
  · exact hh.length_values

theorem IsHamiltonian.evolution_eq_phases (hh : h.IsHamiltonian) (time : ℝ) :
    (h.evolution time).toMatrix (2 ^ h.wireCount) (2 ^ h.wireCount) =
      h.phaseBasis * (phases h.phaseRates time).toMatrix _ _ * h.phaseBasisᴴ := by
  unfold phaseBasis phaseRates
  cases hdiagonal : h.isDiagonal with
  | true => rw [toMatrix_evolution_diagonal hdiagonal, if_pos rfl, if_pos rfl, conjTranspose_one, Matrix.one_mul, Matrix.mul_one]
  | false => rw [toMatrix_evolution hh hdiagonal, if_neg Bool.false_ne_true, if_neg Bool.false_ne_true]

theorem toMatrix_evolution_neg (hh : h.IsHamiltonian) (time : ℝ) :
    (h.evolution (-time)).toMatrix (2 ^ h.wireCount) (2 ^ h.wireCount) =
      ((h.evolution time).toMatrix (2 ^ h.wireCount) (2 ^ h.wireCount))ᴴ := by
  rw [hh.evolution_eq_phases, hh.evolution_eq_phases, toMatrix_phases_neg hh.length_phaseRates, conjTranspose_mul,
    conjTranspose_mul, conjTranspose_conjTranspose, ← Matrix.mul_assoc]

end

end DenseMatrix

/-- The eigenvectors of a Hermitian matrix are orthonormal. -/
class OrthonormalSpectra [EigenSolver ℝ] : Prop extends SquareSpectra ℝ where
  orthonormal : ∀ h : DenseMatrix (Cx ℝ), h.IsHamiltonian →
    h.eigenvectors ∈ Matrix.unitaryGroup (Fin (2 ^ h.wireCount)) ℂ

namespace DenseMatrix
open Matrix

section Unitary

variable [EigenSolver ℝ] [OrthonormalSpectra] {h : DenseMatrix (Cx ℝ)}

theorem IsHamiltonian.phaseBasis_mem_unitary (hh : h.IsHamiltonian) :
    h.phaseBasis ∈ unitaryGroup (Fin (2 ^ h.wireCount)) ℂ := by
  unfold phaseBasis
  split
  · exact one_mem _
  · exact OrthonormalSpectra.orthonormal h hh

theorem evolution_mem_unitary (hh : h.IsHamiltonian) (time : ℝ) :
    (h.evolution time).toMatrix (2 ^ h.wireCount) (2 ^ h.wireCount) ∈ unitaryGroup (Fin (2 ^ h.wireCount)) ℂ := by
  have hbasis := hh.phaseBasis_mem_unitary
  rw [hh.evolution_eq_phases]
  exact mul_mem (mul_mem hbasis (phases_mem_unitary hh.length_phaseRates time)) (Unitary.star_mem hbasis)

end Unitary

noncomputable section

def hermitian (h : DenseMatrix (Cx ℝ)) : Matrix (Fin h.rows) (Fin h.rows) ℂ := fun i j =>
  if j < i then (h.get i j).toComplex
  else if i < j then star (h.get j i).toComplex
  else (h.get i i).re

theorem isHermitian_hermitian (h : DenseMatrix (Cx ℝ)) : h.hermitian.IsHermitian := by
  ext i j
  rw [conjTranspose_apply]
  rcases lt_trichotomy i j with hlt | rfl | hlt
  · simp [hermitian, hlt, hlt.le]
  · simp [hermitian]
  · simp [hermitian, hlt, not_lt_of_gt hlt]

theorem hermitian_eq_toMatrix (h : DenseMatrix (Cx ℝ)) (hconj : ∀ i < h.rows, ∀ j < h.rows, h.get i j = (h.get j i).conj) :
    h.hermitian = h.toMatrix h.rows h.rows := by
  ext i j
  rcases lt_trichotomy i j with hlt | rfl | hlt
  · rw [hermitian, if_neg hlt.not_gt, if_pos hlt, toMatrix, hconj i i.isLt j j.isLt]
    rfl
  · rw [hermitian, if_neg (lt_irrefl i), if_neg (lt_irrefl i), toMatrix]
    have him : (h.get i i).im = -(h.get i i).im := congrArg Cx.im (hconj i i.isLt i i.isLt)
    exact Complex.ext rfl (by linarith : (0 : ℝ) = (h.get i i).im)
  · rw [hermitian, if_pos hlt, toMatrix]

end

end DenseMatrix

@[reducible] noncomputable def EigenSolver.spectral : EigenSolver ℝ where
  spectrum h :=
    { values := List.ofFn h.isHermitian_hermitian.eigenvalues
      vectors := .ofMatrix h.isHermitian_hermitian.eigenvectorUnitary.val }

theorem EigenSolver.orthonormalSpectra_spectral : @OrthonormalSpectra .spectral := by
  let := EigenSolver.spectral
  have hunitary {r d : ℕ} (hd : d = r) (u : Matrix.unitaryGroup (Fin r) ℂ) :
      (DenseMatrix.ofMatrix u.val).toMatrix d d ∈ Matrix.unitaryGroup (Fin d) ℂ := by
    subst hd
    rw [DenseMatrix.toMatrix_ofMatrix]
    exact u.property
  exact
    { values := fun _ _ => List.length_ofFn
      vectors := fun _ _ => ⟨rfl, rfl⟩
      orthonormal := fun h hh => hunitary hh.shaped.rows.symm _ }

open Matrix in
theorem EigenSolver.mulVec_spectral (h : DenseMatrix (Cx ℝ))
    (hconj : ∀ i < h.rows, ∀ j < h.rows, h.get i j = (h.get j i).conj) (j : Fin h.rows) :
    h.toMatrix h.rows h.rows *ᵥ (fun i => ((spectral.spectrum h).vectors.get i j).toComplex) =
      ((spectral.spectrum h).values.getD j 0 : ℂ) • fun i : Fin h.rows => ((spectral.spectrum h).vectors.get i j).toComplex := by
  have hvector : (fun i : Fin h.rows => ((spectral.spectrum h).vectors.get i j).toComplex) =
      (h.isHermitian_hermitian.eigenvectorBasis j).ofLp := by
    funext i
    have hentry := congrFun (congrFun (DenseMatrix.toMatrix_ofMatrix h.isHermitian_hermitian.eigenvectorUnitary.val) i) j
    rw [IsHermitian.eigenvectorUnitary_apply] at hentry
    exact hentry
  have hvalue : (spectral.spectrum h).values.getD j 0 = h.isHermitian_hermitian.eigenvalues j := by
    change (List.ofFn h.isHermitian_hermitian.eigenvalues).getD j 0 = _
    rw [List.getD_eq_getElem _ _ (j.isLt.trans_eq List.length_ofFn.symm), List.getElem_ofFn]
  rw [hvector, hvalue, ← h.hermitian_eq_toMatrix hconj, h.isHermitian_hermitian.mulVec_eigenvectorBasis]
  rfl

end QuantumCircuits
