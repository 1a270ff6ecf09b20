import Mathlib
import QuantumCircuits.Proofs.Simulation.Statevector

/-! Powers of single gates. Repeated squaring multiplies up to the product of copies of the matrix, and placing a matrix
on wires of a register under controls keeps products, so that one gate with the power of its matrix acts on the whole
register as the repeated gate. -/

noncomputable section
namespace QuantumCircuits
open Matrix QuantumCircuits.Basis Operator

theorem DenseMatrix.Shaped.pow_eq_foldl {m : DenseMatrix (Cx ℝ)} {d : ℕ} (hm : m.Shaped d d) (e : ℕ) :
    m.pow e = (List.replicate e m).foldl (· * ·) (identity d) := by
  induction e with
  | zero => exact hm.pow_zero_eq
  | succ e ih => rw [hm.pow_succ_eq, ih, List.replicate_succ', List.foldl_append, List.foldl_cons, List.foldl_nil]

namespace Placement

variable {n d : ℕ} {p : Placement ℝ}

/-- The matrix on all `n` wires that the placement stands for, by the entries of its rows. -/
def expansion (n : ℕ) (p : Placement ℝ) : Operator n := fun i j =>
  ((p.row n i).map fun entry => if entry.1 = j.val then entry.2.toComplex else 0).sum

theorem expansion_eq_placed (h : Selects n d p.targets) :
    p.expansion n = placed p.controls p.targets (p.matrix.toMatrix (2 ^ d) (2 ^ d)) := by
  ext i j
  have hcolumn := congrFun (vector_apply (p := p) h (s := State.basis n j) rfl) i
  rw [State.vector_basis, mulVec_single_one, State.vector, toComplex_amp_apply p _ i.isLt] at hcolumn
  refine Eq.trans ?_ hcolumn
  rw [expansion]
  congr 2
  funext e
  rw [State.amp_basis]
  split <;> simp

namespace Fits

variable {s : State ℝ}

theorem pow (h : p.Fits n) (e : ℕ) : ({ p with matrix := p.matrix.pow e } : Placement ℝ).Fits n :=
  ⟨h.wires, h.matrix.pow e⟩

theorem expansion_pow (h : p.Fits n) (e : ℕ) :
    ({ p with matrix := p.matrix.pow e } : Placement ℝ).expansion n = p.expansion n ^ e := by
  obtain ⟨_, htargets, hfree⟩ := Selects.controls_iff.1 h.wires
  rw [expansion_eq_placed (h.pow e).selects_targets, expansion_eq_placed htargets, DenseMatrix.toMatrix_pow h.matrix,
    placed_pow htargets hfree]

theorem vector_apply_eq (h : p.Fits n) (hs : s.qubits = n) :
    (p.apply s).vector n = p.expansion n *ᵥ s.vector n := by
  rw [vector_apply h.selects_targets hs, ← expansion_eq_placed h.selects_targets]

theorem vector_apply_iterate (h : p.Fits n) (hs : s.qubits = n) (e : ℕ) :
    (p.apply^[e] s).qubits = n ∧ (p.apply^[e] s).vector n = p.expansion n ^ e *ᵥ s.vector n := by
  induction e with
  | zero => exact ⟨hs, by rw [pow_zero, one_mulVec, Function.iterate_zero, id]⟩
  | succ e ih =>
    rw [Function.iterate_succ_apply']
    refine ⟨ih.1, ?_⟩
    rw [h.vector_apply_eq ih.1, ih.2, mulVec_mulVec, ← pow_succ']

theorem apply_pow (h : p.Fits n) (hs : s.qubits = n) (e : ℕ) :
    ({ p with matrix := p.matrix.pow e } : Placement ℝ).apply s = p.apply^[e] s := by
  obtain ⟨hqubits, hvector⟩ := h.vector_apply_iterate hs e
  refine State.ext_vector hs hqubits ?_
  rw [hvector, (h.pow e).vector_apply_eq hs, h.expansion_pow]

end Fits
end Placement

namespace Operation
open Instruction

/-- Powers by repeated squaring are products of copies, and so a power of an operation that is lowered to one gate is
lowered to one gate with the same controls on the same wires. It expands to the power of the expanded gate, and
takes every state of the register to where the repeated gate takes it. -/
theorem powered_eq_repetition [EigenSolver ℝ] [SquareSpectra ℝ] :
    (∀ (d : ℕ) (m : DenseMatrix (Cx ℝ)), m.Shaped d d → ∀ e : ℕ, (m.pow e).Shaped d d ∧
      m.pow e = (List.replicate e m).foldl (· * ·) (.identity d) ∧ (m.pow e).toMatrix d d = m.toMatrix d d ^ e) ∧
    ∀ (o : Operation ℝ) (n : ℕ) (wires : List ℕ) (controls : List (ℕ × Bool)) (adjoint : Bool) (p : Placement ℝ),
      o.WellFormed → Selects n (controls.length + o.arity) (controls.map Prod.fst ++ wires) →
      ofOperation wires controls adjoint o = .ok [.gate p] → ∀ e : ℕ, ∃ q : Placement ℝ,
        ofOperation wires controls adjoint (.powered o e) = .ok [.gate q] ∧
        q.controls = p.controls ∧ q.targets = p.targets ∧ q.expansion n = p.expansion n ^ e ∧
        ∀ s : State ℝ, s.qubits = n → q.apply s = p.apply^[e] s := by
  refine ⟨fun d m hm e => ⟨hm.pow e, hm.pow_eq_foldl e, DenseMatrix.toMatrix_pow hm e⟩, ?_⟩
  intro o n wires controls adjoint p hwell hwires hlower e
  have hfits : p.Fits n := fits_ofOperation hwell hwires hlower (.gate p) List.mem_cons_self
  refine ⟨{ p with matrix := p.matrix.pow e }, ?_, rfl, rfl, hfits.expansion_pow e, fun s hs => hfits.apply_pow hs e⟩
  exact bind_eq_ok_iff.2 ⟨_, hlower, rfl⟩

def turnOnZero : Operation ℝ := .controlled (.primitive (.fixed .s)) ⟨[false]⟩

attribute [local instance] EigenSolver.spectral in
theorem powered_eq_repetition_turnOnZero :
    (DenseMatrix.quarterTurn : DenseMatrix (Cx ℝ)).Shaped 2 2 ∧ turnOnZero.WellFormed ∧
    Selects 3 (1 + turnOnZero.arity) ([(1, true)].map Prod.fst ++ [2, 0]) ∧
    ofOperation [2, 0] [(1, true)] false turnOnZero =
      .ok [.gate ⟨[(1, true), (2, false)], [0], .quarterTurn⟩] ∧
    ∃ q : Placement ℝ, ofOperation [2, 0] [(1, true)] false (.powered turnOnZero 5) = .ok [.gate q] ∧
      q.controls = [(1, true), (2, false)] ∧ q.targets = [0] ∧
      ∀ s : State ℝ, s.qubits = 3 →
        q.apply s = (Placement.apply ⟨[(1, true), (2, false)], [0], .quarterTurn⟩)^[5] s := by
  have := EigenSolver.orthonormalSpectra_spectral
  have hwell : turnOnZero.WellFormed := .controlled (.primitive trivial) rfl (by decide)
  have hwires : Selects 3 (1 + turnOnZero.arity) ([(1, true)].map Prod.fst ++ [2, 0]) := ⟨rfl, by decide, by decide⟩
  have hlower : ofOperation [2, 0] [(1, true)] false turnOnZero =
      .ok [.gate ⟨[(1, true), (2, false)], [0], .quarterTurn⟩] := rfl
  obtain ⟨q, hq, hcontrols, htargets, _, happly⟩ := powered_eq_repetition.2 _ _ _ _ _ _ hwell hwires hlower 5
  exact ⟨⟨rfl, rfl⟩, hwell, hwires, hlower, q, hq, hcontrols, htargets, happly⟩

end Operation
end QuantumCircuits
end
