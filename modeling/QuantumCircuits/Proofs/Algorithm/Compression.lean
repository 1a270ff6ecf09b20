import Mathlib
import QuantumCircuits.Proofs.Algorithm.Compressor
import QuantumCircuits.Proofs.Operator.Product
import QuantumCircuits.Proofs.Simulation.ExactRuns

/-! Compression is lossless on the typical subspace. The transmitter takes a product of eigenvectors of the
mean state to the basis state that is the place of its label in the order of weights. Where that place is
below the number of basis states of the wires that are sent, the other wires read zero, so that their resets
change nothing and the receiver takes back what the transmitter did. -/

noncomputable section
namespace QuantumCircuits
open Matrix QuantumCircuits.Basis Operator Operation

namespace Spectrum

/-- The product of eigenvectors, on each wire the one that the bit of the label stands for. -/
def eigenproduct (s : Spectrum ℝ) (n label : ℕ) : Fin (2 ^ n) → ℂ := product n fun w => s.state (bit label w)

/-- Combinations of the products of eigenvectors on `n` wires whose labels come first in the order of weights,
as many of them as `m` wires have basis states. -/
def typical (s : Spectrum ℝ) (n m : ℕ) : Submodule ℂ (Fin (2 ^ n) → ℂ) :=
  Submodule.span ℂ (s.eigenproduct n '' {label | label < 2 ^ n ∧ Compressor.rank n label < 2 ^ m})

end Spectrum

namespace Compressor

variable {ensemble : List (SourceState ℝ)} {n m : ℕ}

section Maps

variable {change : DenseMatrix (Cx ℝ)} {s : Spectrum ℝ}

def sortedBasis (n : ℕ) (change : DenseMatrix (Cx ℝ)) : Operator n :=
  (weightSorting n).toMatrix (2 ^ n) (2 ^ n) *
    ((List.range n).map fun w => (placed (d := 1) [] [w] (change.toMatrix 2 2) : Operator n)).reverse.prod

theorem sortedBasis_mem_unitary (h : change.toMatrix 2 2 ∈ unitaryGroup (Fin 2) ℂ) :
    sortedBasis n change ∈ unitaryGroup (Fin (2 ^ n)) ℂ := by
  exact mul_mem (weightSorting_mem_unitary n) (placed_wires_mem_unitary (fun w hw => List.mem_range.1 hw) fun _ => h)

theorem sortedBasis_mulVec_product (h : s.vectors.toMatrix 2 2 ∈ unitaryGroup (Fin 2) ℂ) (i : Fin (2 ^ n)) :
    sortedBasis n (basisChange s) *ᵥ product n (fun w => s.state (bit i w)) = Pi.single (ranked i) 1 := by
  have hbasis : product n (fun w => if w ∈ List.range n then (basisChange s).toMatrix 2 2 *ᵥ s.state (bit i w)
      else s.state (bit i w)) = Pi.single i 1 := by
    rw [← product_single]
    refine product_congr fun w hw => ?_
    rw [if_pos (List.mem_range.2 hw), Spectrum.basisChange_mulVec_state h]
  rw [sortedBasis, ← mulVec_mulVec, placed_wires_mulVec_product List.nodup_range fun w hw => List.mem_range.1 hw, hbasis,
    weightSorting_mulVec_single]

/-- Of a typical state the transmitter leaves nothing above the basis states of the wires that are sent. -/
theorem sortedBasis_mulVec_typical (h : s.vectors.toMatrix 2 2 ∈ unitaryGroup (Fin 2) ℂ) {v : Fin (2 ^ n) → ℂ}
    (hv : v ∈ s.typical n m) (i : Fin (2 ^ n)) (hi : 2 ^ m ≤ i.val) : (sortedBasis n (basisChange s) *ᵥ v) i = 0 := by
  induction hv using Submodule.span_induction with
  | mem v hv =>
    obtain ⟨label, ⟨hlabel, hrank⟩, rfl⟩ := hv
    rw [Spectrum.eigenproduct, sortedBasis_mulVec_product h ⟨label, hlabel⟩, Pi.single_eq_of_ne]
    rintro rfl
    exact absurd hrank (not_lt.2 hi)
  | zero => rw [mulVec_zero, Pi.zero_apply]
  | add v w _ _ hv hw => rw [mulVec_add, Pi.add_apply, hv, hw, add_zero]
  | smul a v _ hv => rw [mulVec_smul, Pi.smul_apply, hv, smul_zero]

theorem means_transmitter [EigenSolver ℝ] (hshape : change.Shaped (2 ^ 1) (2 ^ 1)) :
    (Operation.composite (transmitterCircuit n change)).Means (sortedBasis n change) := by
  refine ⟨rfl, heq_of_eq ?_⟩
  change stepsMeaning n (transmitterCircuit n change).steps = _
  have hbasis : (Operation.primitive (.dense "basis" change)).Means (change.toMatrix (2 ^ 1) (2 ^ 1)) :=
    .uncontrolled (arity_dense hshape) rfl rfl
  have hperm : (Operation.primitive (.dense "perm" (weightSorting n))).Means ((weightSorting n).toMatrix (2 ^ n) (2 ^ n)) :=
    .uncontrolled (arity_dense (shaped_weightSorting n)) rfl rfl
  rw [transmitterCircuit, stepsMeaning_append, stepsMeaning_singleton, stepsMeaning_eq_prod, List.map_map, sortedBasis]
  congr 1
  · exact (hperm.placed_eq [] _).trans (placed_range _)
  · congr 2
    exact List.map_congr_left fun w _ => hbasis.placed_eq [] [w]

theorem applies_transmitter [EigenSolver ℝ] [SquareSpectra ℝ] (hn : 0 < n) (hshape : change.Shaped (2 ^ 1) (2 ^ 1)) :
    (transmitterCircuit n change).Applies (sortedBasis n change) := by
  have hmade := madeOf_transmitter hn hshape
  rw [← eq_of_heq (means_transmitter hshape).meaning]
  exact Circuit.WellFormed.applies hmade.wellFormed hmade.isExact_of_isPure

end Maps

section Channel

def turnedChannel (n m : ℕ) (angles : ℕ → ℝ) : Circuit ℝ :=
  ⟨"channel", layout n, (List.range m).map fun i => .gate (.rx (.value (angles i))) [i]⟩

theorem bind_turnedChannel {b : Bindings ℝ} {angles : ℕ → ℝ}
    (h : ∀ i < m, b.get? ((noiseFamily m).tokenName i) = some (angles i)) :
    (channelCircuit n m).bind b = .ok (turnedChannel n m angles) := by
  refine Circuit.bind_of_images ?_
  rw [channelCircuit, List.forall₂_map_left_iff, List.forall₂_map_right_iff, List.forall₂_same]
  exact fun i hi => image_bind_angle (h i (List.mem_range.1 hi)) .rx [i]

theorem madeOf_turnedChannel (hn : 0 < n) (hm : m ≤ n) (angles : ℕ → ℝ) :
    (turnedChannel n m angles).MadeOf Gate.IsPure := by
  refine Circuit.madeOf_single hn fun s hs => ?_
  obtain ⟨i, hi, rfl⟩ := List.mem_map.1 hs
  exact ⟨selects_singleton ((List.mem_range.1 hi).trans_le hm), .primitive trivial ⟨rfl, rfl, nofun⟩⟩

theorem stepsMeaning_turnedChannel [EigenSolver ℝ] (angles : ℕ → ℝ) : stepsMeaning n (turnedChannel n m angles).steps =
    ((List.range m).map fun i =>
      (placed (d := 1) [] [i] ((DenseMatrix.rotationX (angles i)).toMatrix 2 2) : Operator n)).reverse.prod := by
  rw [stepsMeaning_eq_prod, turnedChannel, List.map_map]
  congr 2
  refine List.map_congr_left fun i _ => ?_
  have hmeans : (Operation.primitive (.rx (.value (angles i)))).Means
      ((DenseMatrix.rotationX (angles i)).toMatrix (2 ^ 1) (2 ^ 1)) := .uncontrolled rfl rfl rfl
  exact hmeans.placed_eq [] [i]

theorem applies_turnedChannel [EigenSolver ℝ] [SquareSpectra ℝ] (hn : 0 < n) (hm : m ≤ n) (angles : ℕ → ℝ) :
    (turnedChannel n m angles).Applies (((List.range m).map fun i =>
      (placed (d := 1) [] [i] ((DenseMatrix.rotationX (angles i)).toMatrix 2 2) : Operator n)).reverse.prod) := by
  have hmade := madeOf_turnedChannel hn hm angles
  rw [← stepsMeaning_turnedChannel]
  exact Circuit.WellFormed.applies hmade.wellFormed hmade.isExact_of_isPure

def quietChannel (n m : ℕ) : Circuit ℝ :=
  ⟨"channel", layout n, (List.range m).map fun i => .gate (.rx (.value 0)) [i]⟩

theorem bind_channelCircuit {b : Bindings ℝ} (h : ∀ i < m, b.get? ((noiseFamily m).tokenName i) = some 0) :
    (channelCircuit n m).bind b = .ok (quietChannel n m) := bind_turnedChannel h

theorem madeOf_quietChannel (hn : 0 < n) (hm : m ≤ n) : (quietChannel n m).MadeOf Gate.IsPure :=
  madeOf_turnedChannel hn hm fun _ => 0

theorem applies_quietChannel [EigenSolver ℝ] [SquareSpectra ℝ] (hn : 0 < n) (hm : m ≤ n) :
    (quietChannel n m).Applies (1 : Operator n) := by
  have hone : ((List.range m).map fun i =>
      (placed (d := 1) [] [i] ((DenseMatrix.rotationX (0 : ℝ)).toMatrix 2 2) : Operator n)).reverse.prod = 1 := by
    refine List.prod_eq_one fun a ha => ?_
    obtain ⟨i, hi, rfl⟩ := List.mem_map.1 (List.mem_reverse.1 ha)
    have hzero : (DenseMatrix.rotationX (0 : ℝ)).toMatrix 2 2 = (1 : Operator 1) := DenseMatrix.isRotation_rotationX.zero
    rw [hzero]
    exact placed_one (selects_singleton ((List.mem_range.1 hi).trans_le hm))
  exact hone ▸ applies_turnedChannel hn hm fun _ => 0

end Channel

section Receiver

variable {transmitter : Circuit ℝ}

def undoing (n : ℕ) (transmitter : Circuit ℝ) : Circuit ℝ :=
  ⟨"rx", layout n, [⟨.inverted (.composite transmitter), List.range n⟩]⟩

theorem madeOf_undoing (hn : 0 < n) (hwires : transmitter.wires = n) (h : transmitter.MadeOf Gate.IsPure) :
    (undoing n transmitter).MadeOf Gate.IsPure := by
  have hinverse : (Operation.composite transmitter).inverse = .ok (.inverted (.composite transmitter)) :=
    bind_eq_ok_iff.2 ⟨(), checkInvertible_eq_ok_iff.2 h.isExact_of_isPure.resets, rfl⟩
  refine Circuit.madeOf_single hn (List.forall_mem_singleton.2 ⟨?_, h.inverse hinverse⟩)
  change Selects n transmitter.wires (List.range n)
  rw [hwires]
  exact Selects.range n

variable [EigenSolver ℝ] [SquareSpectra ℝ] {a : Operator n} {ω : ℕ → Draw} {k : ℕ}

theorem applies_undoing (hn : 0 < n) (h : transmitter.MadeOf Gate.IsPure)
    (hmeans : (Operation.composite transmitter).Means a) : (undoing n transmitter).Applies aᴴ := by
  have hmade := madeOf_undoing hn hmeans.arity h
  obtain ⟨rfl, hmeaning⟩ := hmeans
  obtain rfl := eq_of_heq hmeaning
  have hsteps : stepsMeaning _ (undoing _ transmitter).steps = (Operation.composite transmitter).meaningᴴ :=
    (stepsMeaning_singleton _ _).trans (placed_range _)
  rw [← hsteps]
  exact Circuit.WellFormed.applies hmade.wellFormed hmade.isExact_of_isPure

theorem run_receiver (hn : 0 < n) (h : transmitter.MadeOf Gate.IsPure) (hmeans : (Operation.composite transmitter).Means a)
    {v : Fin (2 ^ n) → ℂ} (hv : ∀ i : Fin (2 ^ n), 2 ^ m ≤ i.val → v i = 0) (noise : Option (PauliChannel ℝ)) :
    ((receiverCircuit n m transmitter).run noise (.ofVector v)).run.run (.ofDraws ω k) =
      (.ok (.ofVector (aᴴ *ᵥ v)), .ofDraws ω (k + (n - m))) := by
  have hblank : ∀ w ∈ List.range' m (n - m), w < n ∧ (State.ofVector v).Blank w := by
    intro w hw
    have hbounds := List.mem_range'_1.1 hw
    refine ⟨by omega, fun i hbit => ?_⟩
    by_cases hi : i < 2 ^ n
    · have hlarge : 2 ^ m ≤ i := (Nat.pow_le_pow_right Nat.two_pos hbounds.1).trans (Nat.ge_two_pow_of_testBit hbit)
      rw [State.amp_ofVector v ⟨i, hi⟩, hv ⟨i, hi⟩ hlarge]
      rfl
    · exact State.amp_of_le (not_lt.1 hi)
  let resets : Circuit ℝ := ⟨"rx", layout n, (List.range' m (n - m)).map fun w => .gate .reset [w]⟩
  have hresets : (resets.run noise (.ofVector v)).run.run (.ofDraws ω k) =
      (.ok (.ofVector v), .ofDraws ω (k + (List.range' m (n - m)).length)) := Circuit.run_blank hblank rfl ω k
  rw [List.length_range'] at hresets
  have hundo := (applies_undoing hn h hmeans).run (madeOf_undoing hn hmeans.arity h) v noise (.ofDraws ω (k + (n - m)))
  have hextend : resets.extend (undoing n transmitter) = .ok (receiverCircuit n m transmitter) :=
    Circuit.extend_of_layout rfl
  exact Circuit.run_extend hextend hresets hundo

end Receiver

/-- Compression is lossless on the typical subspace: without noise in the channel, the transmitter, the channel
and the receiver return every state in it, in sequence or as one circuit, whatever the resets draw. -/
theorem returns_typical [EigenSolver ℝ] [OrthonormalSpectra] [DecimalText ℝ] {c : Compressor ℝ}
    (h : ofEnsemble ensemble n = .ok c) {b : Bindings ℝ}
    (hb : ∀ i < c.compressedSize, b.get? ((noiseFamily c.compressedSize).tokenName i) = some 0) :
    ∃ channel whole, c.channel.bind b = .ok channel ∧
      (c.transmitter.extend channel >>= fun front => front.extend c.receiver) = .ok whole ∧
      ∀ s : State ℝ, s.qubits = n → s.vector n ∈ (EigenSolver.spectrum c.density).typical n c.compressedSize →
        ∀ noise ω k,
          (do
            let sent ← c.transmitter.run noise s
            let received ← channel.run noise sent
            c.receiver.run noise received).run.run (.ofDraws ω k) = (.ok s, .ofDraws ω (k + (n - c.compressedSize))) ∧
          (whole.run noise s).run.run (.ofDraws ω k) = (.ok s, .ofDraws ω (k + (n - c.compressedSize))) := by
  obtain ⟨_, hn, _, rfl⟩ := ofEnsemble_eq_ok_iff.1 h
  let spectrum := EigenSolver.spectrum (meanState ensemble)
  let m := (assembled ensemble n).compressedSize
  have hm : m ≤ n := Nat.min_le_right _ _
  have hshape : (basisChange spectrum).Shaped (2 ^ 1) (2 ^ 1) := ⟨rfl, rfl⟩
  have hvectors : spectrum.vectors.toMatrix 2 2 ∈ unitaryGroup (Fin 2) ℂ := eigenvectors_mem_unitary
  have hmap := sortedBasis_mem_unitary (n := n) (Spectrum.basisChange_mem_unitary hvectors)
  have hmade : (transmitterCircuit n (basisChange spectrum)).MadeOf Gate.IsPure := madeOf_transmitter hn hshape
  have hfront := Circuit.extend_of_layout (c := transmitterCircuit n (basisChange spectrum)) (d := quietChannel n m) rfl
  have hwhole := Circuit.extend_of_layout
    (c := { transmitterCircuit n (basisChange spectrum) with
      steps := (transmitterCircuit n (basisChange spectrum)).steps ++ (quietChannel n m).steps })
    (d := receiverCircuit n m (transmitterCircuit n (basisChange spectrum))) rfl
  refine ⟨quietChannel n m, _, bind_channelCircuit hb, bind_eq_ok_iff.2 ⟨_, hfront, hwhole⟩, ?_⟩
  intro s hs htypical noise ω k
  obtain ⟨v, rfl⟩ : ∃ v : Fin (2 ^ n) → ℂ, s = .ofVector v := ⟨_, State.eq_ofVector hs rfl⟩
  rw [State.vector_ofVector] at htypical
  have hsent := (applies_transmitter hn hshape).run hmade v noise (.ofDraws ω k)
  have hreceived := (applies_quietChannel hn hm).run (madeOf_quietChannel hn hm)
    (sortedBasis n (basisChange spectrum) *ᵥ v) noise (.ofDraws ω k)
  have hreturned := run_receiver (ω := ω) (k := k) hn hmade (means_transmitter hshape)
    (sortedBasis_mulVec_typical hvectors htypical) noise
  rw [one_mulVec] at hreceived
  rw [mulVec_mulVec, ← star_eq_conjTranspose, mem_unitaryGroup_iff'.1 hmap, one_mulVec] at hreturned
  exact ⟨(run_bind hsent).trans ((run_bind hreceived).trans hreturned),
    Circuit.run_extend hwhole (Circuit.run_extend hfront hsent hreceived) hreturned⟩

section Biased

def biased : List (SourceState ℝ) := [⟨0, 0, 9 / 10⟩, ⟨Real.pi, 0, 1 / 10⟩]

theorem toMatrix_meanState_biased : (meanState biased).toMatrix 2 2 = !![9 / 10, 0; 0, 1 / 10] := by
  have hzero : Scalar.cos (Scalar.half (0 : ℝ)) = 1 ∧ Scalar.sin (Scalar.half (0 : ℝ)) = 0 := by
    rw [Scalar.half_real, zero_div]
    exact ⟨Real.cos_zero, Real.sin_zero⟩
  have hone : Scalar.cos (Scalar.half Real.pi) = 0 ∧ Scalar.sin (Scalar.half Real.pi) = 1 := by
    rw [Scalar.half_real]
    exact ⟨Real.cos_pi_div_two, Real.sin_pi_div_two⟩
  have hpolar (r : ℝ) : (Cx.polar r 0 : Cx ℝ).toComplex = r :=
    Complex.ext ((congrArg (r * ·) Real.cos_zero).trans (mul_one r)) ((congrArg (r * ·) Real.sin_zero).trans (mul_zero r))
  rw [meanState, DenseMatrix.toMatrix_ofFn]
  ext i j
  fin_cases i <;> fin_cases j <;>
    simp [biased, SourceState.amplitude, SourceState.amplitudes, hzero, hone, hpolar, Cx.toComplex_conj]

theorem checkEnsemble_biased [DecimalText ℝ] : checkEnsemble biased = .ok () := by
  refine checkEnsemble_eq_ok_iff.2 ⟨?_, ?_⟩
  · simp only [biased, List.forall_mem_cons]
    norm_num
  · have hsum : (biased.map SourceState.probability).sum - 1 = 0 := by norm_num [biased]
    rw [hsum, abs_zero, Scalar.tolerance]
    positivity

theorem entropy_biased : 3 / 10 ≤ -(9 / 10 * Real.logb 2 (9 / 10) + 1 / 10 * Real.logb 2 (1 / 10)) ∧
    -(9 / 10 * Real.logb 2 (9 / 10) + 1 / 10 * Real.logb 2 (1 / 10)) ≤ 1 / 2 := by
  have hlarge : Real.logb 2 (1 / 10) = -Real.logb 2 10 := by rw [one_div, Real.logb_inv]
  have hsmall : Real.logb 2 (9 / 10) = Real.logb 2 9 - Real.logb 2 10 := Real.logb_div (by norm_num) (by norm_num)
  have hnine : Real.logb 2 9 ≤ Real.logb 2 10 := Real.logb_le_logb_of_le (by norm_num) (by norm_num) (by norm_num)
  have hten : 3 ≤ Real.logb 2 10 := by
    rw [Real.le_logb_iff_rpow_le (by norm_num) (by norm_num)]
    norm_num
  -- The tenth power of ten over the ninth power of nine is below the fifth power of two.
  have hpowers : 10 * Real.logb 2 10 ≤ 5 + 9 * Real.logb 2 9 := by
    have hle : Real.logb 2 ((10 : ℝ) ^ 10) ≤ Real.logb 2 ((2 : ℝ) ^ 5 * 9 ^ 9) :=
      Real.logb_le_logb_of_le (by norm_num) (by norm_num) (by norm_num)
    rw [Real.logb_mul (by norm_num) (by norm_num), Real.logb_pow, Real.logb_pow, Real.logb_pow,
      Real.logb_self_eq_one (by norm_num)] at hle
    norm_num at hle
    exact hle
  rw [hlarge, hsmall]
  constructor <;> linarith

attribute [local instance] EigenSolver.spectral in
theorem values_biased : (EigenSolver.spectrum (meanState biased)).values = [9 / 10, 1 / 10] ∨
    (EigenSolver.spectrum (meanState biased)).values = [1 / 10, 9 / 10] := by
  have hherm : (meanState biased).hermitian.IsHermitian := (meanState biased).isHermitian_hermitian
  have hmatrix : (meanState biased).hermitian = !![9 / 10, 0; 0, 1 / 10] :=
    ((meanState biased).hermitian_eq_toMatrix meanState_conj).trans toMatrix_meanState_biased
  let value (i : Fin 2) : ℝ := hherm.eigenvalues i
  have htrace : value 0 + value 1 = 1 := by
    have h : (meanState biased).hermitian.trace = ∑ i : Fin 2, (value i : ℂ) := hherm.trace_eq_sum_eigenvalues
    rw [Fin.sum_univ_two, hmatrix] at h
    have htwo : (9 / 10 + 1 / 10 : ℂ) = value 0 + value 1 := (trace_fin_two _).symm.trans h
    have hreal := congrArg Complex.re htwo
    norm_num at hreal
    exact hreal.symm
  have hdet : value 0 * value 1 = 9 / 100 := by
    have h : (meanState biased).hermitian.det = ∏ i : Fin 2, (value i : ℂ) := hherm.det_eq_prod_eigenvalues
    rw [Fin.prod_univ_two, hmatrix] at h
    have htwo : (9 / 10 * (1 / 10) - 0 * 0 : ℂ) = value 0 * value 1 := (det_fin_two _).symm.trans h
    have hreal := congrArg Complex.re htwo
    norm_num at hreal
    exact hreal.symm
  have hvalues : (EigenSolver.spectrum (meanState biased)).values = [value 0, value 1] := rfl
  have hroots : (value 0 - 9 / 10) * (value 0 - 1 / 10) = 0 := by
    have hone : value 1 = 1 - value 0 := by linarith
    rw [hone] at hdet
    linarith
  rw [hvalues]
  rcases mul_eq_zero.1 hroots with h | h
  · have hzero : value 0 = 9 / 10 := by linarith
    have hone : value 1 = 1 / 10 := by linarith
    exact .inl (by rw [hzero, hone])
  · have hzero : value 0 = 1 / 10 := by linarith
    have hone : value 1 = 9 / 10 := by linarith
    exact .inr (by rw [hzero, hone])

theorem entropyOf_pair {x y : ℝ} (hx : 1 / 10 ≤ x) (hy : 1 / 10 ≤ y) :
    entropyOf [x, y] = -(x * Real.logb 2 x + y * Real.logb 2 y) := by
  have htolerance : (Scalar.tolerance : ℝ) < 1 / 10 := by
    rw [Scalar.tolerance]
    norm_num
  have hall : [x, y].filter (fun p => decide (Scalar.tolerance < p)) = [x, y] := by
    refine List.filter_eq_self.2 fun p hp => decide_eq_true (htolerance.trans_le ?_)
    rcases List.mem_pair.1 hp with rfl | rfl
    · exact hx
    · exact hy
  rw [entropyOf, hall, Scalar.sum_real]
  change -(x * Real.logb 2 x + (y * Real.logb 2 y + 0)) = _
  rw [add_zero]

attribute [local instance] EigenSolver.spectral in
theorem compressedSize_biased : (assembled biased 2).compressedSize = 1 := by
  have hentropy : entropyOf (EigenSolver.spectrum (meanState biased)).values =
      -(9 / 10 * Real.logb 2 (9 / 10) + 1 / 10 * Real.logb 2 (1 / 10)) := by
    rcases values_biased with h | h
    · rw [h, entropyOf_pair (by norm_num) (by norm_num)]
    · rw [h, entropyOf_pair (by norm_num) (by norm_num), add_comm]
  have htolerance : (0 : ℝ) < Scalar.tolerance ∧ (Scalar.tolerance : ℝ) ≤ 1 / 10 := by
    rw [Scalar.tolerance]
    constructor <;> norm_num
  obtain ⟨hlow, hhigh⟩ := entropy_biased
  have hceil : ⌈entropyOf (EigenSolver.spectrum (meanState biased)).values * ((2 : ℕ) : ℝ) - Scalar.tolerance⌉₊ = 1 := by
    rw [Nat.ceil_eq_iff one_ne_zero, hentropy, Nat.cast_ofNat]
    constructor
    · norm_num
      linarith
    · push_cast
      linarith
  change min ⌈_⌉₊ 2 = 1
  rw [hceil]
  rfl

def silence : Bindings ℝ := Bindings.empty.insert ((noiseFamily 1).tokenName 0) 0

attribute [local instance] EigenSolver.spectral DecimalText.quarter in
theorem returns_typical_biased : ∃ c, ofEnsemble biased 2 = .ok c ∧ c.compressedSize = 1 ∧
    (∀ i < c.compressedSize, silence.get? ((noiseFamily c.compressedSize).tokenName i) = some 0) ∧
    ∃ v ∈ (EigenSolver.spectrum c.density).typical 2 c.compressedSize,
      v = (3 / 5 : ℂ) • (EigenSolver.spectrum c.density).eigenproduct 2 0 +
        (4 / 5 : ℂ) • (EigenSolver.spectrum c.density).eigenproduct 2 1 ∧
      ∃ channel whole, c.channel.bind silence = .ok channel ∧
        (c.transmitter.extend channel >>= fun front => front.extend c.receiver) = .ok whole ∧
        ∀ noise ω k, (whole.run noise (.ofVector v)).run.run (.ofDraws ω k) = (.ok (.ofVector v), .ofDraws ω (k + 1)) := by
  have := EigenSolver.orthonormalSpectra_spectral
  have haccepted : ofEnsemble biased 2 = .ok (assembled biased 2) :=
    ofEnsemble_of_check (List.cons_ne_nil _ _) Nat.two_pos checkEnsemble_biased
  have hsize := compressedSize_biased
  have hsilence : ∀ i < (assembled biased 2).compressedSize,
      silence.get? ((noiseFamily (assembled biased 2).compressedSize).tokenName i) = some 0 := by
    rw [hsize]
    intro i hi
    obtain rfl := Nat.lt_one_iff.1 hi
    rw [silence, Bindings.get?_insert, if_pos rfl]
  have hfirst (label : ℕ) (h : label < 2 ^ 2 ∧ rank 2 label < 2 ^ (assembled biased 2).compressedSize) :
      (EigenSolver.spectrum (assembled biased 2).density).eigenproduct 2 label ∈
        (EigenSolver.spectrum (assembled biased 2).density).typical 2 (assembled biased 2).compressedSize :=
    Submodule.subset_span ⟨label, h, rfl⟩
  have hrank : rank 2 0 < 2 ^ 1 ∧ rank 2 1 < 2 ^ 1 := by decide +kernel
  have htypical := Submodule.add_mem _
    (Submodule.smul_mem _ (3 / 5 : ℂ) (hfirst 0 ⟨by decide, hsize.symm ▸ hrank.1⟩))
    (Submodule.smul_mem _ (4 / 5 : ℂ) (hfirst 1 ⟨by decide, hsize.symm ▸ hrank.2⟩))
  obtain ⟨channel, whole, hbind, hwhole, hreturns⟩ := returns_typical haccepted hsilence
  refine ⟨_, haccepted, hsize, hsilence, _, htypical, rfl, channel, whole, hbind, hwhole, fun noise ω k => ?_⟩
  have hrun := (hreturns (.ofVector _) rfl (by rwa [State.vector_ofVector]) noise ω k).2
  rw [hsize] at hrun
  exact hrun

end Biased

end Compressor
end QuantumCircuits
end
