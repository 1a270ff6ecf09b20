import Mathlib
import QuantumCircuits.Proofs.Circuit.MadeOf
import QuantumCircuits.Proofs.Simulation.Lowering
import QuantumCircuits.Simulation.Exact

/-! Only evolutions under matrices that are not diagonal ask for a spectrum. A circuit without them runs the
same whatever way to find spectra there is. -/

namespace QuantumCircuits

variable {R : Type}

def Gate.IsEvolution : Gate R → Prop
  | .evolution .. => True
  | _ => False

variable [Scalar R]

def Gate.ReadsSpectrum : Gate R → Prop
  | .evolution hamiltonian _ => hamiltonian.isDiagonal = false
  | _ => False

theorem Gate.ReadsSpectrum.isEvolution {g : Gate R} (h : g.ReadsSpectrum) : g.IsEvolution := by
  cases g with
  | evolution m time => exact trivial
  | _ => exact h

theorem Gate.readsSpectrum_adjoint {g a : Gate R} (h : ¬ g.ReadsSpectrum) (ha : g.adjoint = .ok a) :
    ¬ a.ReadsSpectrum := by
  have hadjoint := adjoint_eq_ok_iff.1 ha
  cases g with
  | evolution m time =>
    cases hadjoint
    exact h
  | reset => cases hadjoint
  | _ =>
    cases hadjoint
    exact not_false

section Solvers

variable (e f : EigenSolver R)

theorem Gate.targetMatrix_solver {g : Gate R} (h : ¬ g.ReadsSpectrum) :
    @Gate.targetMatrix R _ e g = @Gate.targetMatrix R _ f g := by
  cases g with
  | evolution m time =>
    have hdiagonal : m.isDiagonal = true := eq_true_of_ne_false h
    have hsame (x : R) : @DenseMatrix.evolution R _ e m x = @DenseMatrix.evolution R _ f m x :=
      (if_pos hdiagonal).trans (if_pos hdiagonal).symm
    exact congrArg (time.resolve >>= ·) (funext fun x => congrArg Except.ok (hsame x))
  | _ => rfl

namespace Instruction

theorem ofGate_solver {g : Gate R} (h : ¬ g.ReadsSpectrum) (wires : List ℕ)
    (controls : List (ℕ × Bool)) (adjoint : Bool) :
    @ofGate R _ e g wires controls adjoint = @ofGate R _ f g wires controls adjoint := by
  unfold ofGate
  split
  · rfl
  · rfl
  · cases adjoint with
    | true =>
      simp only [if_true]
      cases ha : g.adjoint with
      | error fault => rfl
      | ok a =>
        change (do let m ← @Gate.targetMatrix R _ e a; _) = (do let m ← @Gate.targetMatrix R _ f a; _)
        rw [Gate.targetMatrix_solver e f (Gate.readsSpectrum_adjoint h ha)]
    | false =>
      change (do let m ← @Gate.targetMatrix R _ e g; _) = (do let m ← @Gate.targetMatrix R _ f g; _)
      rw [Gate.targetMatrix_solver e f h]

theorem ofOperation_solver {o : Operation R} {b : Bool} (h : ∀ g ∈ o.gates b, ¬ g.1.ReadsSpectrum)
    (wires : List ℕ) (controls : List (ℕ × Bool)) (adjoint : Bool) :
    @ofOperation R _ e wires controls adjoint o = @ofOperation R _ f wires controls adjoint o := by
  induction o using Operation.induct generalizing b wires controls adjoint with
  | primitive g => exact ofGate_solver e f (h _ List.mem_cons_self) wires controls adjoint
  | composite c ih =>
    rw [@ofOperation_composite R _ e, @ofOperation_composite R _ f]
    refine congrArg inSequence (List.map_congr_left fun s hs => ?_)
    have hmem := mem_ordered_iff.1 hs
    exact ih s hmem (fun g hg => h g (Operation.mem_gates_composite hmem hg)) _ _ _
  | controlled o s ih => exact ih h _ _ _
  | powered o k ih =>
    have hbody := ih h wires controls adjoint
    change (do let body ← @ofOperation R _ e wires controls adjoint o; _) = _
    rw [hbody]
    rfl
  | inverted o ih => exact ih h _ _ _

end Instruction

theorem Circuit.statevector_solver {c : Circuit R}
    (h : ∀ g ∈ (Operation.composite c).gates false, ¬ g.1.ReadsSpectrum) (s : State R) :
    @Circuit.statevector R _ e c s = @Circuit.statevector R _ f c s := by
  have hlower : @Instruction.ofCircuit R _ e c = @Instruction.ofCircuit R _ f c :=
    Instruction.ofOperation_solver e f h _ _ _
  unfold statevector prepare
  rw [hlower]

end Solvers
end QuantumCircuits
