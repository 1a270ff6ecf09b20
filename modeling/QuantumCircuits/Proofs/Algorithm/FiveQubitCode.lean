import Mathlib
import QuantumCircuits.Proofs.Algorithm.ErrorCorrection

/-! The five-qubit code corrects every error on one wire. Its tables correct the four strings on each code
wire, and every map on one wire is a combination of those. -/

noncomputable section
namespace QuantumCircuits
open Matrix QuantumCircuits.Basis Operator PauliString

namespace CodeTables

def fiveQubit : CodeTables where
  code := 5
  syndrome := 4
  logicalWire := 4
  encoder := ErrorCorrection.fiveQubitEncoder
  checks := (List.range 4).map fun s => ⟨s, (ErrorCorrection.fiveQubitChecks.filter fun c => c.1 == s).map Prod.snd⟩
  corrections := ErrorCorrection.fiveQubitCorrections.map fun (gate, text, target) =>
    ⟨gate, text.toList.reverse.map (· == '1'), target⟩

theorem fiveQubit_assembled {R : Type} [Scalar R] :
    (ErrorCorrection.fiveQubit : Except Fault (ErrorCorrection R)) = .ok (fiveQubit.assembled R) := rfl

theorem sound_fiveQubit : fiveQubit.Sound where
  nonempty := by decide
  logical := by decide
  encoder := by decide
  checks := by decide
  corrections := by decide +kernel
  quiet := by decide +kernel
  unspread := by decide +kernel
  silent := by decide +kernel
  stabilised := by decide +kernel

theorem corrects_fiveQubit : ∀ w < 5, ∀ e, fiveQubit.Corrects (onWire w e) := by decide +kernel

end CodeTables

/-- With any unitary map on any one code wire in the channel, the code register ends in its input state and
the syndrome register in some state, so that the fidelity is one. -/
theorem ErrorCorrection.fiveQubit_corrects [EigenSolver ℝ] [SquareSpectra ℝ] {α β : Cx ℝ} (hone : α.normSq + β.normSq = 1)
    {m : Matrix (Fin 2) (Fin 2) ℂ} (hunitary : m ∈ unitaryGroup (Fin 2) ℂ) {w : ℕ} (hw : w < 5) {channel : Circuit ℝ}
    (hsizes : channel.layout.sizes = [5, 4]) (happlies : channel.Applies (placed (d := 1) [] [w] m : Operator 9)) :
    ∃ e c output, ∃ rest : State ℝ, fiveQubit = .ok e ∧ e.withChannel channel = .ok c ∧
      c.statevector (e.logical α β) = .ok output ∧ rest.IsNormalised 4 ∧
        (∀ i < 2 ^ 5, ∀ j < 2 ^ 4, output.amp (i + 2 ^ 5 * j) = (e.logical α β).amp i * rest.amp j) ∧
          e.logicalFidelity (e.logical α β) output = .ok 1 := by
  have hwire : w < 9 := hw.trans (by decide)
  have hplaced : (placed (d := 1) [] [w] m : Operator 9) ∈ unitaryGroup _ ℂ :=
    placed_mem_unitary (selects_singleton hwire) (List.forall_mem_nil _) hunitary
  obtain ⟨_, hsum⟩ := exists_placed_eq_sum hwire m
  obtain ⟨c, output, rest, hc, houtput, hrest, hproduct, hfidelity⟩ :=
    CodeTables.sound_fiveQubit.corrects_channel hsizes happlies hplaced hsum
      (CodeTables.corrects_fiveQubit w hw) hone
  exact ⟨_, c, output, rest, CodeTables.fiveQubit_assembled, hc, houtput, hrest, hproduct, hfidelity⟩

namespace CodeTables

def mixing : Matrix (Fin 2) (Fin 2) ℂ := FixedGate.s.matrix.toMatrix 2 2 * FixedGate.h.matrix.toMatrix 2 2

theorem mixing_mem_unitary : mixing ∈ unitaryGroup (Fin 2) ℂ :=
  mul_mem (FixedGate.matrix_mem_unitary .s) (FixedGate.matrix_mem_unitary .h)

def mixingChannel : Circuit ℝ := ⟨"channel", fiveQubit.layout, [.gate (.dense "e" (.ofMatrix mixing)) [2]]⟩

end CodeTables

attribute [local instance] EigenSolver.spectral in
theorem ErrorCorrection.fiveQubit_corrects_mixing :
    (⟨3 / 5, 0⟩ : Cx ℝ).normSq + (⟨0, 4 / 5⟩ : Cx ℝ).normSq = 1 ∧ CodeTables.mixing ∈ unitaryGroup (Fin 2) ℂ ∧
      CodeTables.mixingChannel.layout.sizes = [5, 4] ∧
      CodeTables.mixingChannel.Applies (placed (d := 1) [] [2] CodeTables.mixing : Operator 9) ∧
      ∃ e c output, ∃ rest : State ℝ, fiveQubit = .ok e ∧ e.withChannel CodeTables.mixingChannel = .ok c ∧
        c.statevector (e.logical ⟨3 / 5, 0⟩ ⟨0, 4 / 5⟩) = .ok output ∧ rest.IsNormalised 4 ∧
          (∀ i < 2 ^ 5, ∀ j < 2 ^ 4,
            output.amp (i + 2 ^ 5 * j) = (e.logical ⟨3 / 5, 0⟩ ⟨0, 4 / 5⟩).amp i * rest.amp j) ∧
            e.logicalFidelity (e.logical ⟨3 / 5, 0⟩ ⟨0, 4 / 5⟩) output = .ok 1 := by
  have := EigenSolver.orthonormalSpectra_spectral
  have hone : (⟨3 / 5, 0⟩ : Cx ℝ).normSq + (⟨0, 4 / 5⟩ : Cx ℝ).normSq = 1 := by
    norm_num [Cx.normSq]
  have happlies : CodeTables.mixingChannel.Applies (placed (d := 1) [] [2] CodeTables.mixing : Operator 9) :=
    Circuit.applies_dense (CodeTables.layout_wellFormed CodeTables.sound_fiveQubit) (by decide) CodeTables.mixing
  exact ⟨hone, CodeTables.mixing_mem_unitary, rfl, happlies,
    fiveQubit_corrects hone CodeTables.mixing_mem_unitary (by decide) rfl happlies⟩

end QuantumCircuits
end
