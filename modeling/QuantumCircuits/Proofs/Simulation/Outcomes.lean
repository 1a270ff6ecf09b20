import Mathlib
import QuantumCircuits.Proofs.Number.InnerProduct
import QuantumCircuits.Proofs.Random.Draws
import QuantumCircuits.Proofs.Simulation.Density
import QuantumCircuits.Proofs.Simulation.Realization
import QuantumCircuits.Simulation.Trajectory

/-! What errors and resets make of a normalised state. Each error of a channel is selected by an interval
of draws, and each outcome of a reset by as many draws as it weighs, so that the outcomes, weighted,
add up to what the channel or the reset makes of the density matrix. -/

namespace QuantumCircuits

noncomputable section
open Matrix QuantumCircuits.Basis Operator

theorem Cx.toComplex_divReal (a : Cx ℝ) (x : ℝ) : (a.divReal x).toComplex = (x⁻¹ : ℝ) * a.toComplex := by
  rw [← toComplex_scale]
  exact congrArg toComplex (Cx.ext (div_eq_mul_inv _ _) (div_eq_mul_inv _ _))

namespace State

def afterError (s : State ℝ) (w : ℕ) : Option FixedGate → State ℝ
  | none => s
  | some g => (Placement.single g w).apply s

def afterReset (s : State ℝ) (w : ℕ) (outcome : Bool) : State ℝ :=
  let one := s.probabilityOfOne w
  let collapsed := s.project w outcome (√(if outcome then one else 1 - one))
  if outcome then (Placement.single .x w).apply collapsed else collapsed

end State

namespace State

variable {n : ℕ} {s : State ℝ}

structure IsNormalised (n : ℕ) (s : State ℝ) : Prop where
  qubits : s.qubits = n
  mass : mass (s.vector n) = 1

theorem isNormalised_zero (n : ℕ) : (State.zero n : State ℝ).IsNormalised n := by
  have hvector : (State.zero n : State ℝ).vector n = Pi.single ⟨0, Nat.two_pow_pos n⟩ 1 := vector_basis ⟨0, Nat.two_pow_pos n⟩
  refine ⟨rfl, ?_⟩
  simp only [Operator.mass, hvector, Pi.single_apply, apply_ite Complex.normSq, Complex.normSq_one, Complex.normSq_zero]
  rw [Finset.sum_ite_eq', if_pos (Finset.mem_univ _)]

theorem norm_eq (hs : s.qubits = n) : s.norm = √(Operator.mass (s.vector n)) := by
  subst hs
  rw [norm, toList_eq, Cx.length_map_range]
  rfl

theorem isNormalised_iff : s.IsNormalised n ↔ s.qubits = n ∧ s.norm = 1 := by
  constructor
  · intro h
    exact ⟨h.qubits, by rw [norm_eq h.qubits, h.mass, Real.sqrt_one]⟩
  · rintro ⟨hs, hnorm⟩
    rw [norm_eq hs, Real.sqrt_eq_one] at hnorm
    exact ⟨hs, hnorm⟩

theorem probabilityOfOne_eq (hs : s.qubits = n) (w : ℕ) :
    s.probabilityOfOne w = Operator.mass (reads w true *ᵥ s.vector n) := by
  subst hs
  have hterm (i : Fin (2 ^ s.qubits)) : Complex.normSq ((reads w true *ᵥ s.vector s.qubits) i) =
      if i.val.testBit w = true then (s.amp i).normSq else 0 := by
    rw [reads_mulVec]
    split
    · exact Complex.normSq_apply _
    · exact Complex.normSq_zero
  have hrange : (((List.range (2 ^ s.qubits)).filter fun i => i.testBit w).map fun i => (s.amp i).normSq).sum =
      ∑ i ∈ Finset.range (2 ^ s.qubits) with i.testBit w = true, (s.amp i).normSq := by
    have hsplit := List.sum_map_ite (fun i : ℕ => i.testBit w = true) (fun i => (s.amp i).normSq) (fun _ => 0)
      (List.range (2 ^ s.qubits))
    simp only [List.map_const', List.sum_replicate, smul_zero, add_zero, Bool.decide_eq_true] at hsplit
    rw [Finset.sum_filter, ← hsplit]
    rfl
  rw [probabilityOfOne, Scalar.sum_real, zipIdx_toList, List.filter_map, List.map_map, mass]
  simp only [hterm]
  rw [Fin.sum_univ_eq_sum_range fun i => if i.testBit w = true then (s.amp i).normSq else 0, ← Finset.sum_filter]
  exact hrange

theorem vector_project (hs : s.qubits = n) (w : ℕ) (b : Bool) (length : ℝ) :
    (s.project w b length).vector n = ((length⁻¹ : ℝ) : ℂ) • (reads w b *ᵥ s.vector n) := by
  subst hs
  funext i
  rw [vector, project, amp_ofFn _ _ i.isLt, Pi.smul_apply, reads_mulVec, smul_eq_mul]
  by_cases hbit : i.val.testBit w = b
  · have hbeq : (i.val.testBit w == b) = true := beq_iff_eq.2 hbit
    rw [if_pos hbeq, if_pos hbit, Cx.toComplex_divReal]
    rfl
  · have hbeq : ¬ (i.val.testBit w == b) = true := fun h => hbit (beq_iff_eq.1 h)
    rw [if_neg hbeq, if_neg hbit, mul_zero]
    rfl

theorem vector_onWire (hs : s.qubits = n) (g : FixedGate) {w : ℕ} (hw : w < n) :
    ((Placement.single g w).apply s).vector n = onWire g w *ᵥ s.vector n :=
  Placement.vector_apply (p := Placement.single g w) (d := 1)
    ⟨rfl, List.nodup_singleton w, List.forall_mem_singleton.2 hw⟩ hs

end State

namespace PauliChannel

variable {channel : PauliChannel ℝ}

def errors : Finset (Option FixedGate) := {none, some .x, some .y, some .z}

def interval (channel : PauliChannel ℝ) (error : Option FixedGate) : ℝ × ℝ :=
  let p := channel.probability
  let quarter := p / ((4 : ℕ) : ℝ)
  match channel.kind, error with
  | .bitFlip, some .x => (0, p)
  | .phaseFlip, some .z => (0, p)
  | .depolarizing, some .x => (0, quarter)
  | .depolarizing, some .y => (quarter, Scalar.two * quarter)
  | .depolarizing, some .z => (Scalar.two * quarter, ((3 : ℕ) : ℝ) * quarter)
  | .depolarizing, none => (((3 : ℕ) : ℝ) * quarter, 1)
  | _, none => (p, 1)
  | _, some _ => (p, p)

theorem error?_mem (x : ℝ) : channel.error? x ∈ errors := by
  obtain ⟨kind, p⟩ := channel
  cases kind <;> simp only [error?, errors] <;> split_ifs <;> decide

theorem isReflection_of_mem {g : FixedGate} (hg : some g ∈ errors) :
    DenseMatrix.IsReflection (g.matrix.toMatrix 2 2) := by
  have hcases : g = .x ∨ g = .y ∨ g = .z := by simpa [errors] using hg
  rcases hcases with rfl | rfl | rfl
  · exact DenseMatrix.isReflection_pauliX
  · exact DenseMatrix.isReflection_pauliY
  · exact DenseMatrix.isReflection_pauliZ

theorem error?_eq_iff (hp : 0 ≤ channel.probability) (x : Draw) {e : Option FixedGate} (he : e ∈ errors) :
    channel.error? x = e ↔ (channel.interval e).1 ≤ x ∧ x < (channel.interval e).2 := by
  obtain ⟨kind, p⟩ := channel
  obtain ⟨hx, hx'⟩ := x.2
  have hcases : e = none ∨ e = some .x ∨ e = some .y ∨ e = some .z := by simpa [errors] using he
  have hthree : (((3 : ℕ) : ℝ)) = 3 := Nat.cast_ofNat
  have hfour : (((4 : ℕ) : ℝ)) = 4 := Nat.cast_ofNat
  dsimp only at hp
  rcases hcases with rfl | rfl | rfl | rfl <;> cases kind <;>
    simp only [error?, interval, Scalar.two_real, hthree, hfour] <;> grind

theorem interval_bounds (hp : 0 ≤ channel.probability) (hone : channel.probability ≤ 1) (e : Option FixedGate) :
    0 ≤ (channel.interval e).1 ∧ (channel.interval e).1 ≤ (channel.interval e).2 ∧ (channel.interval e).2 ≤ 1 := by
  obtain ⟨kind, p⟩ := channel
  dsimp only at hp hone
  simp only [interval, Scalar.two_real]
  split <;> dsimp only <;> refine ⟨?_, ?_, ?_⟩ <;> linarith

end PauliChannel

namespace State

variable {n w : ℕ} {s : State ℝ}

def errorVector (w : ℕ) (v : Fin (2 ^ n) → ℂ) : Option FixedGate → Fin (2 ^ n) → ℂ
  | none => v
  | some g => onWire g w *ᵥ v

theorem vector_afterError (hs : s.qubits = n) (hw : w < n) (e : Option FixedGate) :
    (s.afterError w e).vector n = errorVector w (s.vector n) e := by
  cases e with
  | none => rfl
  | some g => exact vector_onWire hs g hw

theorem IsNormalised.afterError (h : s.IsNormalised n) (hw : w < n) {e : Option FixedGate}
    (he : e ∈ PauliChannel.errors) : (s.afterError w e).IsNormalised n := by
  cases e with
  | none => exact h
  | some g =>
    refine ⟨h.qubits, ?_⟩
    rw [vector_afterError h.qubits hw, errorVector,
      mass_mulVec (onWire_mem_unitary (PauliChannel.isReflection_of_mem he) hw), h.mass]

theorem IsNormalised.probability (h : s.IsNormalised n) (w : ℕ) (b : Bool) :
    (if b then s.probabilityOfOne w else 1 - s.probabilityOfOne w) =
      Operator.mass (reads w b *ᵥ s.vector n) := by
  have hsum := mass_reads w (s.vector n)
  rw [h.mass] at hsum
  rw [probabilityOfOne_eq h.qubits]
  cases b with
  | true => exact if_pos rfl
  | false =>
    rw [if_neg Bool.false_ne_true]
    linarith

def resetInterval (s : State ℝ) (w : ℕ) (b : Bool) : ℝ × ℝ :=
  if b then (0, s.probabilityOfOne w) else (s.probabilityOfOne w, 1)

theorem outcome_eq_iff (s : State ℝ) (w : ℕ) (x : Draw) (b : Bool) :
    decide (x.val < s.probabilityOfOne w) = b ↔ (s.resetInterval w b).1 ≤ x.val ∧ x.val < (s.resetInterval w b).2 := by
  obtain ⟨hx, hx'⟩ := x.2
  cases b with
  | true => exact decide_eq_true_iff.trans ⟨fun h => ⟨hx, h⟩, And.right⟩
  | false => exact decide_eq_false_iff_not.trans ⟨fun h => ⟨not_lt.1 h, hx'⟩, fun h => not_lt.2 h.1⟩

theorem IsNormalised.length_resetInterval (h : s.IsNormalised n) (w : ℕ) (b : Bool) :
    (s.resetInterval w b).2 - (s.resetInterval w b).1 = Operator.mass (reads w b *ᵥ s.vector n) := by
  rw [← h.probability]
  cases b with
  | true => exact sub_zero _
  | false => rfl

theorem IsNormalised.resetInterval_bounds (h : s.IsNormalised n) (w : ℕ) (b : Bool) :
    0 ≤ (s.resetInterval w b).1 ∧ (s.resetInterval w b).1 ≤ (s.resetInterval w b).2 ∧
      (s.resetInterval w b).2 ≤ 1 := by
  have hone : 0 ≤ s.probabilityOfOne w := (mass_nonneg _).trans_eq (h.probability w true).symm
  have hzero : 0 ≤ 1 - s.probabilityOfOne w := (mass_nonneg _).trans_eq (h.probability w false).symm
  cases b with
  | true => exact ⟨le_rfl, hone, sub_nonneg.1 hzero⟩
  | false => exact ⟨hone, sub_nonneg.1 hzero, le_rfl⟩

def measured (w : ℕ) (v : Fin (2 ^ n) → ℂ) (b : Bool) : Fin (2 ^ n) → ℂ :=
  (((√(Operator.mass (reads w b *ᵥ v)))⁻¹ : ℝ) : ℂ) • (reads w b *ᵥ v)

def resetVector (w : ℕ) (v : Fin (2 ^ n) → ℂ) (b : Bool) : Fin (2 ^ n) → ℂ :=
  if b then onWire .x w *ᵥ measured w v b else measured w v b

theorem vector_afterReset (h : s.IsNormalised n) (hw : w < n) (b : Bool) :
    (s.afterReset w b).vector n = resetVector w (s.vector n) b := by
  have hproject : (s.project w b √(if b then s.probabilityOfOne w else 1 - s.probabilityOfOne w)).vector n =
      measured w (s.vector n) b := by
    rw [vector_project h.qubits, h.probability]
    rfl
  cases b with
  | true =>
    refine (vector_onWire (s := s.project w true _) h.qubits .x hw).trans ?_
    rw [hproject]
    rfl
  | false => exact hproject

theorem selected_pos (s : State ℝ) (w : ℕ) (x : Draw) :
    0 < if decide (x < s.probabilityOfOne w) then s.probabilityOfOne w else 1 - s.probabilityOfOne w := by
  by_cases hx : x < s.probabilityOfOne w
  · rw [decide_eq_true hx, if_pos rfl]
    exact x.2.1.trans_lt hx
  · rw [decide_eq_false hx, if_neg Bool.false_ne_true]
    exact sub_pos.2 ((not_lt.1 hx).trans_lt x.2.2)

theorem IsNormalised.mass_pos (h : s.IsNormalised n) (w : ℕ) (x : Draw) :
    0 < Operator.mass (reads w (decide (x < s.probabilityOfOne w)) *ᵥ s.vector n) := by
  rw [← h.probability]
  exact s.selected_pos w x

theorem IsNormalised.afterReset (h : s.IsNormalised n) (hw : w < n) {b : Bool}
    (hpos : 0 < Operator.mass (reads w b *ᵥ s.vector n)) : (s.afterReset w b).IsNormalised n := by
  have hmeasured : Operator.mass (measured w (s.vector n) b) = 1 := by
    rw [measured, mass_smul, inv_pow, Real.sq_sqrt hpos.le, inv_mul_cancel₀ hpos.ne']
  have hflip : onWire .x w ∈ unitaryGroup (Fin (2 ^ n)) ℂ :=
    onWire_mem_unitary (g := .x) DenseMatrix.isReflection_pauliX hw
  refine ⟨?_, ?_⟩
  · cases b <;> exact h.qubits
  · rw [vector_afterReset h hw, resetVector]
    split
    · rw [mass_mulVec hflip, hmeasured]
    · exact hmeasured

theorem reset_eq (s : State ℝ) (w : ℕ) (x : Draw) :
    s.reset w x = .ok (s.afterReset w (decide (x < s.probabilityOfOne w))) := by
  have hlength := (Real.sqrt_pos.2 (s.selected_pos w x)).ne'
  unfold reset
  have hne : ¬ (Scalar.sqrt (if decide (x < s.probabilityOfOne w) then s.probabilityOfOne w
      else 1 - s.probabilityOfOne w) == 0) = true := fun hzero => hlength (beq_iff_eq.1 hzero)
  exact if_neg hne

end State

theorem Instruction.mix_reset {n : ℕ} (channel : Option (PauliChannel ℝ)) (w : ℕ) (v : Fin (2 ^ n) → ℂ) :
    (Instruction.reset w).mix channel (projector v) =
      ∑ b : Bool, (Operator.mass (reads w b *ᵥ v) : ℂ) • projector (State.resetVector w v b) := by
  have hreads (b : Bool) : reads w b * projector v * reads w b = projector (reads w b *ᵥ v) := by
    rw [← conj_projector, conjTranspose_reads]
  have hflip : projector (State.resetVector w v true) =
      onWire .x w * projector (State.measured w v true) * onWire .x w :=
    (conj_onWire (g := .x) DenseMatrix.isReflection_pauliX w _).symm
  have hkeep : projector (State.resetVector w v false) = projector (State.measured w v false) := rfl
  have hscale (b : Bool) : (Operator.mass (reads w b *ᵥ v) : ℂ) • projector (State.measured w v b) =
      projector (reads w b *ᵥ v) := smul_projector_normalised _
  rw [Fintype.sum_bool, hflip, hkeep, hscale, ← smul_mul_assoc, ← mul_smul_comm, hscale, mix, hreads, hreads,
    add_comm]

theorem PauliChannel.mix_projector {n : ℕ} (channel : PauliChannel ℝ) (w : ℕ) (v : Fin (2 ^ n) → ℂ) :
    channel.mix w (projector v) = ∑ e ∈ errors,
      (((channel.interval e).2 - (channel.interval e).1 : ℝ) : ℂ) • projector (State.errorVector w v e) := by
  have hx := conj_onWire (g := .x) DenseMatrix.isReflection_pauliX w v
  have hy := conj_onWire (g := .y) DenseMatrix.isReflection_pauliY w v
  have hz := conj_onWire (g := .z) DenseMatrix.isReflection_pauliZ w v
  obtain ⟨kind, p⟩ := channel
  cases kind <;> simp [mix, errors, interval, State.errorVector, Scalar.two_real, hx, hy, hz]
  module

end
end QuantumCircuits
