import Mathlib
import QuantumCircuits.Proofs.Algorithm.WeightOrder
import QuantumCircuits.Proofs.Circuit.MadeOf
import QuantumCircuits.Proofs.Operator.Registers
import QuantumCircuits.Proofs.Simulation.Unitarity

/-! What a compressor consists of. The mean state of an ensemble is Hermitian exactly and its eigenvectors are
orthonormal, so the change of basis is unitary and no call of the assembly is refused. -/

noncomputable section
namespace QuantumCircuits
open Matrix QuantumCircuits.Basis Operator Operation

theorem Gate.ofUnitary_of_mem_unitary {label : String} {m : DenseMatrix (Cx ℝ)} {d : ℕ} (hd : 0 < d)
    (hshape : m.Shaped (2 ^ d) (2 ^ d)) (hunitary : m.toMatrix (2 ^ d) (2 ^ d) ∈ unitaryGroup (Fin (2 ^ d)) ℂ) :
    Gate.ofUnitary label m = .ok (.dense label m) := by
  have hproduct : m.adjoint * m = DenseMatrix.identity m.rows := by
    rw [hshape.rows]
    refine DenseMatrix.ext_toMatrix (hshape.adjoint.mul hshape) (DenseMatrix.shaped_identity _) ?_
    rw [DenseMatrix.toMatrix_mul hshape.adjoint hshape, DenseMatrix.toMatrix_adjoint hshape, DenseMatrix.toMatrix_identity]
    exact mem_unitaryGroup_iff'.1 hunitary
  exact ofUnitary_eq_ok_iff.2 ⟨⟨checkDimension_of_shaped hd hshape, hproduct ▸ DenseMatrix.isNear_self _⟩, rfl⟩

namespace Spectrum

variable (s : Spectrum ℝ)

/-- The place of the larger eigenvalue for zero and of the other one for one. Of two that are equal the first
one counts as the larger. -/
def place (b : Fin 2) : Fin 2 := if s.values.getD 1 0 ≤ s.values.getD 0 0 then b else b.rev

def value (b : Fin 2) : ℝ := s.values.getD (s.place b) 0

def state (b : Fin 2) : Fin 2 → ℂ := fun i => (s.vectors.get i (s.place b)).toComplex

theorem value_one_le : s.value 1 ≤ s.value 0 := by
  unfold value place
  split
  · assumption
  · next h => exact (not_le.1 h).le

theorem place_injective : Function.Injective s.place := by
  intro a b h
  unfold place at h
  split at h
  · exact h
  · exact Fin.rev_injective h

theorem toMatrix_basisChange :
    (Compressor.basisChange s).toMatrix 2 2 = ((s.vectors.toMatrix 2 2).submatrix id s.place)ᴴ := by
  refine (DenseMatrix.toMatrix_adjoint (r := 2) (c := 2) ⟨rfl, rfl⟩).trans (congrArg conjTranspose ?_)
  rw [DenseMatrix.toMatrix_ofFn]
  ext i b
  rw [submatrix_apply, DenseMatrix.toMatrix, place]
  by_cases h : s.values.getD 1 0 ≤ s.values.getD 0 0
  · rw [if_pos h, decide_eq_true h]
    rfl
  · rw [if_neg h, decide_eq_false h]
    fin_cases b <;> rfl

variable {s}

theorem basisChange_mul_states (h : s.vectors.toMatrix 2 2 ∈ unitaryGroup (Fin 2) ℂ) :
    (Compressor.basisChange s).toMatrix 2 2 * (s.vectors.toMatrix 2 2).submatrix id s.place = 1 := by
  rw [toMatrix_basisChange, conjTranspose_submatrix, ← submatrix_mul _ _ _ _ _ Function.bijective_id,
    ← star_eq_conjTranspose, mem_unitaryGroup_iff'.1 h, submatrix_one _ s.place_injective]

theorem basisChange_mem_unitary (h : s.vectors.toMatrix 2 2 ∈ unitaryGroup (Fin 2) ℂ) :
    (Compressor.basisChange s).toMatrix 2 2 ∈ unitaryGroup (Fin 2) ℂ := by
  have hone := basisChange_mul_states h
  rw [mem_unitaryGroup_iff, star_eq_conjTranspose]
  nth_rewrite 2 [toMatrix_basisChange]
  rwa [conjTranspose_conjTranspose]

theorem basisChange_mulVec_state (h : s.vectors.toMatrix 2 2 ∈ unitaryGroup (Fin 2) ℂ) (b : Fin 2) :
    (Compressor.basisChange s).toMatrix 2 2 *ᵥ s.state b = Pi.single b 1 := by
  have hcolumn : s.state b = (s.vectors.toMatrix 2 2).submatrix id s.place *ᵥ Pi.single b 1 := by
    rw [mulVec_single_one]
    rfl
  rw [hcolumn, mulVec_mulVec, basisChange_mul_states h, one_mulVec]

end Spectrum

namespace Compressor

variable {ensemble : List (SourceState ℝ)} {n m : ℕ}

theorem meanState_conj : ∀ i < 2, ∀ j < 2, (meanState ensemble).get i j = ((meanState ensemble).get j i).conj := by
  intro i hi j hj
  have hsum (xs : List (SourceState ℝ)) (a b : Cx ℝ) (hab : a = b.conj) :
      xs.foldl (fun sum s => sum + (s.amplitude i * (s.amplitude j).conj).scale s.probability) a =
        (xs.foldl (fun sum s => sum + (s.amplitude j * (s.amplitude i).conj).scale s.probability) b).conj := by
    induction xs generalizing a b with
    | nil => exact hab
    | cons s xs ih =>
      refine ih _ _ (Cx.toComplex_injective ?_)
      simp only [hab, Cx.toComplex_conj, Cx.toComplex_add, Cx.toComplex_scale, Cx.toComplex_mul, star_add, star_mul',
        Complex.star_def, Complex.conj_ofReal, Complex.conj_conj]
      ring
  rw [meanState, DenseMatrix.get_ofFn _ hi hj, DenseMatrix.get_ofFn _ hj hi]
  exact hsum ensemble 0 0 (Cx.ext rfl neg_zero.symm)

theorem isHamiltonian_meanState : (meanState ensemble).IsHamiltonian :=
  ⟨Gate.checkDimension_eq_ok_iff.2 ⟨rfl, le_rfl, 1, rfl⟩, DenseMatrix.isNear_adjoint rfl meanState_conj⟩

theorem eigenvectors_mem_unitary [EigenSolver ℝ] [OrthonormalSpectra] :
    (EigenSolver.spectrum (meanState ensemble)).vectors.toMatrix 2 2 ∈ unitaryGroup (Fin 2) ℂ := by
  have hcast {d : ℕ} (hd : 2 ^ (meanState ensemble).wireCount = d) :
      (EigenSolver.spectrum (meanState ensemble)).vectors.toMatrix d d ∈ unitaryGroup (Fin d) ℂ := by
    subst hd
    exact OrthonormalSpectra.orthonormal _ isHamiltonian_meanState
  refine hcast ?_
  have hcount : (meanState ensemble).wireCount = 1 := Nat.log2_two_pow (n := 1)
  rw [hcount, Nat.pow_one]

attribute [local instance] EigenSolver.spectral in
/-- Under exact spectra the states of the two bits are eigenvectors of the mean state, and that of zero has the larger
eigenvalue. -/
theorem mulVec_state :
    (∀ b, (meanState ensemble).toMatrix 2 2 *ᵥ (EigenSolver.spectrum (meanState ensemble)).state b =
      ((EigenSolver.spectrum (meanState ensemble)).value b : ℂ) • (EigenSolver.spectrum (meanState ensemble)).state b) ∧
    (EigenSolver.spectrum (meanState ensemble)).value 1 ≤ (EigenSolver.spectrum (meanState ensemble)).value 0 :=
  ⟨fun b => EigenSolver.mulVec_spectral (meanState ensemble) meanState_conj (Spectrum.place _ b), Spectrum.value_one_le _⟩

section Assembly

def layout (n : ℕ) : Layout := ⟨[⟨"q", n, 0⟩], n⟩

def sourceCircuit (n : ℕ) : Circuit ℝ :=
  ⟨"source", layout n, (List.range n).flatMap fun i =>
    [.gate (.ry ((thetaFamily n).get i)) [i], .gate (.rz ((phiFamily n).get i)) [i]]⟩

def transmitterCircuit (n : ℕ) (change : DenseMatrix (Cx ℝ)) : Circuit ℝ :=
  ⟨"tx", layout n, (List.range n).map (fun i => .gate (.dense "basis" change) [i]) ++
    [.gate (.dense "perm" (weightSorting n)) (List.range n)]⟩

def channelCircuit (n m : ℕ) : Circuit ℝ :=
  ⟨"channel", layout n, (List.range m).map fun i => .gate (.rx ((noiseFamily m).get i)) [i]⟩

def receiverCircuit (n m : ℕ) (transmitter : Circuit ℝ) : Circuit ℝ :=
  ⟨"rx", layout n, (List.range' m (n - m)).map (fun i => .gate .reset [i]) ++
    [⟨.inverted (.composite transmitter), List.range n⟩]⟩

variable {change : DenseMatrix (Cx ℝ)}

theorem madeOf_dense {label : String} {m : DenseMatrix (Cx ℝ)} {d : ℕ} (hd : 0 < d) (hshape : m.Shaped (2 ^ d) (2 ^ d)) :
    (Operation.primitive (.dense label m)).MadeOf Gate.IsPure :=
  .primitive (Gate.checkDimension_of_shaped hd hshape) ⟨rfl, rfl, nofun⟩

theorem arity_dense {label : String} {m : DenseMatrix (Cx ℝ)} {d : ℕ} (hshape : m.Shaped (2 ^ d) (2 ^ d)) :
    (Gate.dense label m).arity = d := by
  rw [Gate.arity, DenseMatrix.wireCount, hshape.rows, Nat.log2_two_pow]

theorem fits_dense {label : String} {m : DenseMatrix (Cx ℝ)} {d : ℕ} {wires : List ℕ} (hshape : m.Shaped (2 ^ d) (2 ^ d))
    (hwires : Selects n d wires) : Step.Fits n (.gate (.dense label m) wires) := by
  change Selects n (Gate.dense label m).arity wires
  rwa [arity_dense hshape]

theorem transmitter_steps (hn : 0 < n) (hshape : change.Shaped (2 ^ 1) (2 ^ 1)) :
    ∀ s ∈ (transmitterCircuit n change).steps, s.Fits n ∧ s.operation.MadeOf Gate.IsPure := by
  intro s hs
  rcases List.mem_append.1 hs with hs | hs
  · obtain ⟨i, hi, rfl⟩ := List.mem_map.1 hs
    exact ⟨fits_dense hshape (selects_singleton (List.mem_range.1 hi)), madeOf_dense Nat.one_pos hshape⟩
  · obtain rfl := List.mem_singleton.1 hs
    exact ⟨fits_dense (shaped_weightSorting n) (Selects.range n), madeOf_dense hn (shaped_weightSorting n)⟩

theorem madeOf_transmitter (hn : 0 < n) (hshape : change.Shaped (2 ^ 1) (2 ^ 1)) :
    (transmitterCircuit n change).MadeOf Gate.IsPure := Circuit.madeOf_single hn (transmitter_steps hn hshape)

theorem buildSource_eq (hn : 0 < n) : buildSource n = .ok (sourceCircuit n) := by
  refine bind_eq_ok_iff.2 ⟨_, Circuit.addRegister_empty hn "source" "q", ?_⟩
  simp only [Register.wires_first]
  refine Circuit.appendAll_eq_ok_iff.2 ⟨fun s hs => ?_, rfl⟩
  obtain ⟨i, hi, hs⟩ := List.mem_flatMap.1 hs
  have hwire : Selects n 1 [i] := selects_singleton (List.mem_range.1 hi)
  rcases List.mem_pair.1 hs with rfl | rfl <;> exact hwire

theorem buildTransmitter_eq (hn : 0 < n) (hshape : change.Shaped (2 ^ 1) (2 ^ 1))
    (hunitary : change.toMatrix (2 ^ 1) (2 ^ 1) ∈ unitaryGroup (Fin (2 ^ 1)) ℂ) :
    buildTransmitter n change = .ok (transmitterCircuit n change) := by
  have hsteps := transmitter_steps hn hshape
  refine bind_eq_ok_iff.2 ⟨_, Circuit.addRegister_empty hn "tx" "q", ?_⟩
  simp only [Register.wires_first]
  refine bind_eq_ok_iff.2 ⟨_, Gate.ofUnitary_of_mem_unitary Nat.one_pos hshape hunitary, ?_⟩
  refine bind_eq_ok_iff.2 ⟨_, Circuit.appendAll_eq_ok_iff.2 ⟨fun s hs => (hsteps s (List.mem_append_left _ hs)).1, rfl⟩, ?_⟩
  refine bind_eq_ok_iff.2 ⟨_, Gate.ofUnitary_of_mem_unitary hn (shaped_weightSorting n) (weightSorting_mem_unitary n), ?_⟩
  exact Circuit.append_eq_ok_iff.2 ⟨(hsteps _ (List.mem_append_right _ List.mem_cons_self)).1, rfl⟩

theorem buildChannel_eq (hn : 0 < n) (hm : m ≤ n) : buildChannel n m = .ok (channelCircuit n m) := by
  refine bind_eq_ok_iff.2 ⟨_, Circuit.addRegister_empty hn "channel" "q", ?_⟩
  refine Circuit.appendAll_eq_ok_iff.2 ⟨fun s hs => ?_, rfl⟩
  obtain ⟨i, hi, rfl⟩ := List.mem_map.1 hs
  exact selects_singleton ((List.mem_range.1 hi).trans_le hm)

theorem buildReceiver_eq (hn : 0 < n) {transmitter : Circuit ℝ} (hwires : transmitter.wires = n)
    (hunitary : (Operation.composite transmitter).isUnitary = true) :
    buildReceiver n m transmitter = .ok (receiverCircuit n m transmitter) := by
  refine bind_eq_ok_iff.2 ⟨_, Circuit.addRegister_empty hn "rx" "q", ?_⟩
  simp only [Register.wires_first]
  refine bind_eq_ok_iff.2 ⟨_, Circuit.appendAll_eq_ok_iff.2 ⟨fun s hs => ?_, rfl⟩, ?_⟩
  · obtain ⟨i, hi, rfl⟩ := List.mem_map.1 hs
    have hi' := List.mem_range'_1.1 hi
    have hlt : i < n := by omega
    exact selects_singleton hlt
  · refine bind_eq_ok_iff.2 ⟨_, bind_eq_ok_iff.2 ⟨(), checkInvertible_eq_ok_iff.2 hunitary, rfl⟩, ?_⟩
    refine Circuit.append_eq_ok_iff.2 ⟨?_, rfl⟩
    change Selects n transmitter.wires (List.range n)
    rw [hwires]
    exact Selects.range n

end Assembly

theorem checkEnsemble_eq_ok_iff [DecimalText ℝ] {ensemble : List (SourceState ℝ)} : checkEnsemble ensemble = .ok () ↔
    (∀ s ∈ ensemble, 0 ≤ s.probability) ∧ |(ensemble.map SourceState.probability).sum - 1| ≤ Scalar.tolerance := by
  unfold checkEnsemble
  dsimp only
  rw [Scalar.sum_real, Scalar.magnitude_real]
  split
  · next hrefused =>
    refine ⟨nofun, fun ⟨hnonneg, htotal⟩ => ?_⟩
    rcases (Bool.or_eq_true _ _).mp hrefused with h | h
    · obtain ⟨s, hs, hneg⟩ := List.any_eq_true.1 h
      exact absurd (of_decide_eq_true hneg) (not_lt.2 (hnonneg s hs))
    · exact absurd (of_decide_eq_true h) (not_lt.2 htotal)
  · next hfine =>
    rw [Bool.or_eq_true, not_or, decide_eq_true_iff] at hfine
    refine ⟨fun _ => ⟨fun s hs => not_lt.1 fun hneg => hfine.1 ?_, not_lt.1 hfine.2⟩, fun _ => rfl⟩
    exact List.any_eq_true.2 ⟨s, hs, decide_eq_true hneg⟩

theorem of_ofEnsemble_eq_ok {R : Type} [Scalar R] [EigenSolver R] [DecimalText R] {ensemble : List (SourceState R)}
    {n : ℕ} {c : Compressor R} (h : ofEnsemble ensemble n = .ok c) :
    ensemble ≠ [] ∧ 0 < n ∧ checkEnsemble ensemble = .ok () := by
  unfold ofEnsemble at h
  split at h
  · cases h
  · next hnonempty =>
    obtain ⟨_, hcheck, _⟩ := bind_eq_ok_iff.1 h
    simp only [Bool.or_eq_true, List.isEmpty_iff, decide_eq_true_iff, not_or] at hnonempty
    exact ⟨hnonempty.1, Nat.pos_of_ne_zero hnonempty.2, hcheck⟩

section Accepted

variable [EigenSolver ℝ]

def assembled (ensemble : List (SourceState ℝ)) (n : ℕ) : Compressor ℝ :=
  let spectrum := EigenSolver.spectrum (meanState ensemble)
  let entropy := entropyOf spectrum.values
  let m := min (Scalar.ceilNat (entropy * ((n : ℕ) : ℝ) - Scalar.tolerance)) n
  let transmitter := transmitterCircuit n (basisChange spectrum)
  { ensemble, blockSize := n, compressedSize := m, entropy, density := meanState ensemble, source := sourceCircuit n,
    transmitter, channel := channelCircuit n m, receiver := receiverCircuit n m transmitter }

variable [OrthonormalSpectra]

theorem ofEnsemble_of_check [DecimalText ℝ] (hensemble : ensemble ≠ []) (hn : 0 < n)
    (hcheck : checkEnsemble ensemble = .ok ()) : ofEnsemble ensemble n = .ok (assembled ensemble n) := by
  have hshape : (basisChange (EigenSolver.spectrum (meanState ensemble))).Shaped (2 ^ 1) (2 ^ 1) := ⟨rfl, rfl⟩
  have hvectors : (EigenSolver.spectrum (meanState ensemble)).vectors.toMatrix 2 2 ∈ unitaryGroup (Fin 2) ℂ :=
    eigenvectors_mem_unitary
  have hunitary := Spectrum.basisChange_mem_unitary hvectors
  have hnonempty : ¬ (ensemble.isEmpty || n = 0) = true := by simp [hensemble, hn.ne']
  rw [ofEnsemble, if_neg hnonempty]
  refine bind_eq_ok_iff.2 ⟨(), hcheck, bind_eq_ok_iff.2 ⟨_, buildSource_eq hn, ?_⟩⟩
  refine bind_eq_ok_iff.2 ⟨_, buildTransmitter_eq hn hshape hunitary, ?_⟩
  refine bind_eq_ok_iff.2 ⟨_, buildChannel_eq hn (Nat.min_le_right _ _), ?_⟩
  exact bind_eq_ok_iff.2 ⟨_, buildReceiver_eq hn rfl (madeOf_transmitter hn hshape).isExact_of_isPure.resets, rfl⟩

theorem ofEnsemble_eq_ok_iff [DecimalText ℝ] {c : Compressor ℝ} : ofEnsemble ensemble n = .ok c ↔
    ensemble ≠ [] ∧ 0 < n ∧ checkEnsemble ensemble = .ok () ∧ c = assembled ensemble n := by
  constructor
  · intro h
    obtain ⟨hensemble, hn, hcheck⟩ := of_ofEnsemble_eq_ok h
    exact ⟨hensemble, hn, hcheck, Except.ok.inj (h.symm.trans (ofEnsemble_of_check hensemble hn hcheck))⟩
  · rintro ⟨hensemble, hn, hcheck, rfl⟩
    exact ofEnsemble_of_check hensemble hn hcheck

end Accepted

end Compressor
end QuantumCircuits
end
