import Mathlib
import QuantumCircuits.Proofs.Operator.Clifford
import QuantumCircuits.Proofs.Simulation.Acceptance
import QuantumCircuits.Proofs.Simulation.Trajectories

/-! Resets along a trajectory. A reset leaves nothing where its wire reads one, whatever the state before it
was, and it never divides by zero, since no draw selects an outcome without weight. -/

noncomputable section
namespace QuantumCircuits
open Matrix QuantumCircuits.Basis Operator

namespace State

variable {s : State ℝ} {w i : ℕ}

@[simp] theorem qubits_afterReset (b : Bool) : (s.afterReset w b).qubits = s.qubits := by
  cases b <;> rfl

theorem amp_flip (hw : w < s.qubits) (i : Fin (2 ^ s.qubits)) :
    ((Placement.single .x w).apply s).amp i = s.amp (flipped (2 ^ w) i).val := by
  have hvector := vector_onWire (s := s) rfl .x hw
  have hflips : (onWire .x w : Operator s.qubits) = (PauliString.flips (2 ^ w)).operator :=
    PauliString.placed_pauliX hw
  rw [hflips] at hvector
  have hentry := congrFun hvector i
  rw [PauliString.operator_flips_mulVec] at hentry
  exact Cx.toComplex_injective hentry

theorem amp_afterReset (hw : w < s.qubits) (b : Bool) (hbit : i.testBit w = true) : (s.afterReset w b).amp i = 0 := by
  by_cases hi : i < 2 ^ s.qubits
  · -- Of the state that the measurement leaves, the amplitudes are zero where the wire reads another bit.
    have hproject (b : Bool) (length : ℝ) {j : ℕ} (hj : j < 2 ^ s.qubits) (hbit : j.testBit w ≠ b) :
        (s.project w b length).amp j = 0 := by
      rw [project, amp_ofFn _ _ hj, if_neg fun heq => hbit (beq_iff_eq.1 heq)]
    cases b with
    | false => exact hproject false _ hi (by rw [hbit]; decide)
    | true =>
      have hflipped := testBit_flipped (2 ^ w) ⟨i, hi⟩ hw
      rw [hbit, Nat.testBit_two_pow_self, Bool.true_xor, Bool.not_true] at hflipped
      exact (amp_flip (s := s.project w true _) hw ⟨i, hi⟩).trans
        (hproject true _ (Fin.isLt _) fun hone => Bool.false_ne_true (hflipped.symm.trans hone))
  · exact amp_of_le (by rw [qubits_afterReset]; exact not_lt.1 hi)

end State

namespace Instruction

variable {channel : Option (PauliChannel ℝ)} {front back : List (Instruction ℝ)} {s : State ℝ}

theorem qubits_trajectory (is : List (Instruction ℝ)) (s : State ℝ) (ω : ℕ → Draw) :
    (trajectory channel is s ω).qubits = s.qubits := by
  induction is generalizing s ω with
  | nil => rfl
  | cons i is ih =>
    have hnext : (i.next channel s (ω 0)).qubits = s.qubits := by
      cases i with
      | gate p => rfl
      | noise w =>
        rw [next]
        cases channel.bind fun channel => channel.error? (ω 0) <;> rfl
      | reset w => exact State.qubits_afterReset _
    exact (ih _ _).trans hnext

theorem run_append {source rest : DrawSource ℝ} {v : State ℝ}
    (h : (run channel front s).run.run source = (.ok v, rest)) :
    (run channel (front ++ back) s).run.run source = (run channel back v).run.run rest := by
  rw [run, List.foldlM_append]
  exact run_bind h

theorem exists_run_reset (channel : Option (PauliChannel ℝ)) (front : List (Instruction ℝ)) {w : ℕ}
    (hw : w < s.qubits) (ω : ℕ → Draw) (k : ℕ) :
    ∃ v m, (run channel (front ++ [.reset w]) s).run.run (.ofDraws ω k) = (.ok v, .ofDraws ω m) ∧
      ∀ i : ℕ, i.testBit w = true → v.amp i = 0 := by
  have hfront : (run channel front s).run.run (.ofDraws ω k) = _ := run_eq front s ω k
  refine ⟨_, _, (run_append hfront).trans (run_eq [.reset w] _ ω _), fun i hi => ?_⟩
  exact State.amp_afterReset (by rw [qubits_trajectory]; exact hw) _ hi

end Instruction

namespace Circuit

variable [EigenSolver ℝ] {c : Circuit ℝ} {is : List (Instruction ℝ)} {channel : Option (PauliChannel ℝ)}

theorem run_of_ofCircuit (hlower : Instruction.ofCircuit c = .ok is) {s : State ℝ} (hs : s.qubits = c.wires)
    (source : DrawSource ℝ) : (c.run channel s).run.run source = (Instruction.run channel is s).run.run source := by
  rw [run]
  exact run_bind (run_liftM (prepare_of_ofCircuit hlower hs))

theorem WellFormed.run_ne_zeroNorm (h : c.WellFormed) (s : State ℝ) (ω : ℕ → Draw) :
    ((c.run channel s).run.run (.ofDraws ω 0)).1 ≠ .error (.state .zeroNormAfterReset) := by
  cases hprepare : c.prepare s with
  | ok is =>
    rw [run, run_bind (run_liftM hprepare), Instruction.run_eq]
    rintro ⟨⟩
  | error fault =>
    have hfault : fault ≠ .state .zeroNormAfterReset := by
      rintro rfl
      unfold prepare at hprepare
      split at hprepare
      · cases hprepare
      · split at hprepare
        · cases hprepare
        · obtain ⟨_, hnoise⟩ | ⟨t, _, htoken⟩ := h.ofCircuit_eq_error hprepare
          · cases hnoise
          · cases htoken
    have hrun : ((c.run channel s).run.run (.ofDraws ω 0)).1 = .error fault := by
      rw [run, hprepare]
      rfl
    rw [hrun]
    exact fun same => hfault (Except.error.inj same)

/-- With exactly unitary gates, a run of a state of length one gives a state of length one, whatever is
drawn. Right after each reset every amplitude is zero in which its wire reads one, and no run of any state
stops because nothing is left after a reset. -/
theorem run_resets [SquareSpectra ℝ] (h : c.Built) (channel : Option (PauliChannel ℝ)) :
    (∀ s ω, ((c.run channel s).run.run (.ofDraws ω 0)).1 ≠ .error (.state .zeroNormAfterReset)) ∧
    ∀ is, Instruction.ofCircuit c = .ok is →
      (∀ s : State ℝ, s.qubits = c.wires → ∀ ω front w back, is = front ++ .reset w :: back →
        ∃ v k, (Instruction.run channel (front ++ [.reset w]) s).run.run (.ofDraws ω 0) = (.ok v, .ofDraws ω k) ∧
          (∀ i : ℕ, i.testBit w = true → v.amp i = 0) ∧
          (c.run channel s).run.run (.ofDraws ω 0) = (Instruction.run channel back v).run.run (.ofDraws ω k)) ∧
      ((∀ g ∈ (Operation.composite c).gates false, g.1.action ∈ unitaryGroup _ ℂ) →
        ∀ s : State ℝ, s.qubits = c.wires → s.norm = 1 → ∀ ω,
          ∃ t k, (c.run channel s).run.run (.ofDraws ω 0) = (.ok t, .ofDraws ω k) ∧
            t.qubits = c.wires ∧ t.norm = 1) := by
  refine ⟨h.wellFormed.run_ne_zeroNorm, fun is hlower => ⟨?_, ?_⟩⟩
  · rintro s hs ω front w back rfl
    have hw : w < s.qubits :=
      hs ▸ Instruction.fits_ofCircuit h.wellFormed hlower (.reset w) (List.mem_append_right _ List.mem_cons_self)
    obtain ⟨v, k, hrun, hzero⟩ := Instruction.exists_run_reset channel front hw ω 0
    refine ⟨v, k, hrun, hzero, ?_⟩
    rw [run_of_ofCircuit hlower hs, List.append_cons]
    exact Instruction.run_append hrun
  · intro hunitary s hs hnorm ω
    have hfits := Instruction.fits_ofCircuit h.wellFormed hlower
    have hplaced := Instruction.holdsUnitary_ofOperation h.wellFormed hunitary hlower
    have hfinal : (Instruction.trajectory channel is s fun m => ω (0 + m)).IsNormalised c.wires :=
      Instruction.isNormalised_trajectory (State.isNormalised_iff.2 ⟨hs, hnorm⟩) hfits hplaced _
    exact ⟨_, _, (run_of_ofCircuit hlower hs _).trans (Instruction.run_eq is s ω 0), State.isNormalised_iff.1 hfinal⟩

end Circuit

attribute [local instance] EigenSolver.spectral in
theorem Circuit.run_resets_noisy :
    Circuit.noisy.Built ∧ Instruction.ofCircuit Circuit.noisy = .ok Instruction.noisy ∧
    (∀ g ∈ (Operation.composite Circuit.noisy).gates false, g.1.action ∈ unitaryGroup _ ℂ) ∧
    (State.zero 2 : State ℝ).norm = 1 ∧
    ∀ ω, ((Circuit.noisy.run (some .quarter) (.zero 2)).run.run (.ofDraws ω 0)).1 ≠
        .error (.state .zeroNormAfterReset) ∧
      (∃ v k, (Instruction.run (some .quarter) (Instruction.noisy.take 5 ++ [.reset 1]) (.zero 2)).run.run
          (.ofDraws ω 0) = (.ok v, .ofDraws ω k) ∧ (∀ i : ℕ, i.testBit 1 = true → v.amp i = 0) ∧
        (Circuit.noisy.run (some .quarter) (.zero 2)).run.run (.ofDraws ω 0) =
          (Instruction.run (some .quarter) [.noise 0] v).run.run (.ofDraws ω k)) ∧
      ∃ t k, (Circuit.noisy.run (some .quarter) (.zero 2)).run.run (.ofDraws ω 0) = (.ok t, .ofDraws ω k) ∧
        t.qubits = 2 ∧ t.norm = 1 := by
  have := EigenSolver.orthonormalSpectra_spectral
  have hlower : Instruction.ofCircuit Circuit.noisy = .ok Instruction.noisy := rfl
  have hnorm : (State.zero 2 : State ℝ).norm = 1 := (State.isNormalised_iff.1 (State.isNormalised_zero 2)).2
  obtain ⟨hnever, hresets⟩ := run_resets noisy_built (some .quarter)
  obtain ⟨hafter, hlength⟩ := hresets _ hlower
  exact ⟨noisy_built, hlower, action_noisy, hnorm, fun ω => ⟨hnever _ ω, hafter (.zero 2) rfl ω _ 1 _ rfl,
    hlength action_noisy (.zero 2) rfl hnorm ω⟩⟩

end QuantumCircuits
end
