import Mathlib
import QuantumCircuits.Proofs.Simulation.Solvers
import QuantumCircuits.Proofs.Simulation.Statevector
import QuantumCircuits.Proofs.Simulation.Unitarity

/-! Operations that run by themselves, on the wires of a circuit that holds nothing else. -/

namespace QuantumCircuits.Operation
open QuantumCircuits.Basis

variable {R : Type}

def alone (o : Operation R) : Circuit R :=
  ⟨"main", ⟨[⟨"q", o.arity, 0⟩], o.arity⟩, [⟨o, List.range o.arity⟩]⟩

theorem gates_alone (o : Operation R) (b : Bool) :
    (Operation.composite o.alone).gates b = o.gates b := by
  rw [gates_composite, alone, List.flatMap_singleton]

variable [Scalar R]

def run [EigenSolver R] (o : Operation R) (s : State R) : Except Fault (State R) := do
  let (q, c) ← (Circuit.empty "main").addRegister "q" o.arity
  (← c.append o q.wires).statevector s

theorem WellFormed.alone {o : Operation R} (h : o.WellFormed) (hpos : 0 < o.arity) :
    o.alone.WellFormed := by
  refine Circuit.wellFormed_iff.2 ⟨⟨⟨rfl, trivial⟩, (Nat.add_zero _).symm, ?_⟩, ?_⟩
  · exact List.forall_mem_singleton.2 hpos
  · exact List.forall_mem_singleton.2 ⟨Selects.range o.arity, h⟩

theorem run_eq_alone [EigenSolver R] {o : Operation R} (hpos : 0 < o.arity) (s : State R) :
    o.run s = o.alone.statevector s := by
  have happend : Circuit.append { o.alone with steps := [] } o (Register.wires ⟨"q", o.arity, 0⟩) =
      .ok o.alone := by
    refine Circuit.append_eq_ok_iff.2 ⟨?_, ?_⟩
    · rw [Register.wires, ← List.range_eq_range']
      exact Selects.range o.arity
    · rw [Register.wires, ← List.range_eq_range']
      rfl
  unfold run
  rw [Circuit.addRegister_empty hpos]
  change (do let c ← Circuit.append { o.alone with steps := [] } o _; c.statevector s) = _
  rw [happend]
  rfl

noncomputable section
open Matrix Operator

theorem meaning_alone [EigenSolver ℝ] (o : Operation ℝ) : o.alone.meaning = o.meaning := by
  change stepsMeaning o.arity [⟨o, List.range o.arity⟩] = o.meaning
  rw [stepsMeaning_singleton]
  exact placed_range o.meaning

theorem WellFormed.run_eq [EigenSolver ℝ] [SquareSpectra ℝ] {o : Operation ℝ} (h : o.WellFormed)
    (hexact : o.IsExact) (hpos : 0 < o.arity) {d : ℕ} {m : Operator d} (hm : o.Means m) {s : State ℝ}
    (hs : s.qubits = d) : o.run s = .ok (.ofVector (m *ᵥ s.vector d)) := by
  obtain ⟨rfl, hmeaning⟩ := hm
  have halone : (Operation.composite o.alone).IsExact :=
    isExact_composite.2 (List.forall_mem_singleton.2 hexact)
  have hmap : o.alone.meaning = m := o.meaning_alone.trans (eq_of_heq hmeaning)
  rw [run_eq_alone hpos, ← hmap]
  exact Circuit.statevector_of_wellFormed (h.alone hpos) halone hs

theorem run_solver (e f : EigenSolver R) {o : Operation R} (hpos : 0 < o.arity)
    (h : ∀ g ∈ o.gates false, ¬ g.1.ReadsSpectrum) (s : State R) :
    @run R _ e o s = @run R _ f o s := by
  rw [@run_eq_alone R _ e o hpos, @run_eq_alone R _ f o hpos]
  exact Circuit.statevector_solver e f (o.gates_alone false ▸ h) s

theorem MadeOf.run_eq [EigenSolver ℝ] {o : Operation ℝ} (h : o.MadeOf fun g => g.IsNumeric ∧ ¬ g.IsEvolution)
    (hpos : 0 < o.arity) {d : ℕ} {m : Operator d} (hm : @Means EigenSolver.spectral o d m) {s : State ℝ}
    (hs : s.qubits = d) : o.run s = .ok (.ofVector (m *ᵥ s.vector d)) := by
  have hnumeric : o.MadeOf Gate.IsNumeric := h.mono fun _ => And.left
  rw [run_solver _ EigenSolver.spectral hpos fun g hg hreads => (h.gates false g hg).2 hreads.isEvolution]
  let _ := EigenSolver.spectral
  have := EigenSolver.orthonormalSpectra_spectral
  exact hnumeric.wellFormed.run_eq hnumeric.isExact hpos hm hs

end
end QuantumCircuits.Operation
