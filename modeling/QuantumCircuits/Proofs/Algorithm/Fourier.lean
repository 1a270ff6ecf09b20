import Mathlib
import QuantumCircuits.Proofs.Algorithm.Gates
import QuantumCircuits.Proofs.Operator.Diagonal
import QuantumCircuits.Proofs.Operator.Fourier
import QuantumCircuits.Proofs.Simulation.Registers
import QuantumCircuits.Proofs.Simulation.Standalone

/-! The Fourier transform of a register of wires, stage by stage. -/

noncomputable section
namespace QuantumCircuits
open Matrix QuantumCircuits.Basis Operator Operation
open DenseMatrix (hadamard exchange phase toMatrix_exchange toMatrix_phase)

section Exchange

variable {n a b : ℕ}

theorem Basis.testBit_exchange (h : Selects n 2 [a, b]) (i : Fin (2 ^ n)) (w : ℕ) :
    (write [a, b] i (Basis.read 2 [b, a] i.val)).val.testBit w =
      i.val.testBit (Equiv.swap a b w) := by
  have hback : Selects n 2 [b, a] := h.reverse
  have hlow : (write [a, b] i (Basis.read 2 [b, a] i.val)).val.testBit a = i.val.testBit b :=
    (h.testBit_write_getD i _ Nat.two_pos).trans (hback.testBit_read i.val Nat.two_pos)
  have hhigh : (write [a, b] i (Basis.read 2 [b, a] i.val)).val.testBit b = i.val.testBit a :=
    (h.testBit_write_getD i _ Nat.one_lt_two).trans (hback.testBit_read i.val Nat.one_lt_two)
  by_cases ha : w = a
  · rw [ha, hlow, Equiv.swap_apply_left]
  · by_cases hb : w = b
    · rw [hb, hhigh, Equiv.swap_apply_right]
    · rw [Equiv.swap_apply_of_ne_of_ne ha hb]
      exact h.testBit_write_of_not_mem i _ (by simp [ha, hb])

theorem Operator.placed_exchange_mulVec (h : Selects n 2 [a, b]) (v : Fin (2 ^ n) → ℂ) (i : Fin (2 ^ n)) :
    (placed (d := 2) [] [a, b] (exchange.toMatrix 4 4) *ᵥ v) i =
      v (write [a, b] i (Basis.read 2 [b, a] i.val)) := by
  have hread (v w : ℕ) : Basis.read 2 [v, w] i.val =
      if i.val.testBit v then (if i.val.testBit w then (3 : Fin 4) else (1 : Fin 4))
      else if i.val.testBit w then (2 : Fin 4) else (0 : Fin 4) := by
    unfold Basis.read
    rw [gather, gather, gather_nil]
    cases i.val.testBit v <;> cases i.val.testBit w <;> rfl
  rw [placed_nil_mulVec h, toMatrix_exchange, hread, hread]
  refine (Fin.sum_univ_four _).trans ?_
  cases i.val.testBit a <;> cases i.val.testBit b <;> simp

end Exchange

theorem Operator.placed_phase {n a b : ℕ} (h : Selects n 2 [a, b]) (θ : ℝ) :
    (placed (d := 1) [(a, true)] [b] ((phase θ).toMatrix 2 2) : Operator n) =
      diagonal fun i => if i.val.testBit a && i.val.testBit b then Complex.exp (θ * Complex.I) else 1 := by
  have hsel : Selects n 1 [b] := h.drop 1
  have hdiag : ((phase θ).toMatrix 2 2).IsDiag := by
    rw [toMatrix_phase]
    intro i j hne
    fin_cases i <;> fin_cases j
    · exact absurd rfl hne
    · rfl
    · rfl
    · exact absurd rfl hne
  refine (isDiag_placed hsel hdiag).diagonal_diag.symm.trans (congrArg diagonal (funext fun i => ?_))
  have hholds : holds [(a, true)] i.val = i.val.testBit a := by simp [holds]
  rw [diag_apply, placed, hholds, if_pos rfl, Matrix.one_apply_eq, toMatrix_phase, read_singleton]
  cases i.val.testBit a <;> cases i.val.testBit b <;> simp

namespace Fourier

variable {R : Type} [Scalar R] {n k c : ℕ}

def endsReversed (n c w : ℕ) : ℕ := if w < c ∨ n - 1 - w < c then n - 1 - w else w

theorem endsReversed_succ {w : ℕ} (hc : c < n / 2) (hw : w < n) :
    Equiv.swap c (n - 1 - c) (endsReversed n c w) = endsReversed n (c + 1) w := by
  unfold endsReversed
  by_cases hlow : w = c
  · have hfirst : ¬ (w < c ∨ n - 1 - w < c) := by omega
    have hthen : w < c + 1 ∨ n - 1 - w < c + 1 := by omega
    rw [if_neg hfirst, if_pos hthen, hlow, Equiv.swap_apply_left]
  · by_cases hhigh : w = n - 1 - c
    · have hfirst : ¬ (w < c ∨ n - 1 - w < c) := by omega
      have hthen : w < c + 1 ∨ n - 1 - w < c + 1 := by omega
      have hback : n - 1 - (n - 1 - c) = c := by omega
      rw [if_neg hfirst, if_pos hthen, hhigh, Equiv.swap_apply_right, hback]
    · have hsame : (w < c ∨ n - 1 - w < c) ↔ (w < c + 1 ∨ n - 1 - w < c + 1) := by omega
      simp only [hsame]
      refine Equiv.swap_apply_of_ne_of_ne ?_ ?_
      · split <;> omega
      · split <;> omega

theorem selects_ends (hc : c < n / 2) : Selects n 2 [c, n - 1 - c] :=
  selects_pair (by omega) (by omega) (by omega)

theorem fits_steps {s : Step (Operation R)} (hs : s ∈ reversal n ++ (List.range n).flatMap (stage n)) :
    s.Fits n := by
  rcases List.mem_append.1 hs with hs | hs
  · obtain ⟨i, hi, rfl⟩ := List.mem_map.1 hs
    exact selects_ends (List.mem_range.1 hi)
  · obtain ⟨i, hi, hs⟩ := List.mem_flatMap.1 hs
    have hi := List.mem_range.1 hi
    rcases List.mem_cons.1 hs with rfl | hs
    · exact selects_singleton hi
    · obtain ⟨j, hj, rfl⟩ := List.mem_map.1 hs
      have hj := List.mem_range'_1.1 hj
      exact selects_pair hi (by omega) (by omega)

def body (R : Type) [Scalar R] (n : ℕ) : Circuit R :=
  ⟨"qft", ⟨[⟨"c", n, 0⟩], n⟩, reversal n ++ (List.range n).flatMap (stage n)⟩

theorem transform_eq (hn : 0 < n) : transform n = .ok (.composite (body R n)) := by
  refine bind_eq_ok_iff.2 ⟨_, Circuit.addRegister_empty hn "qft" "c", bind_eq_ok_iff.2 ⟨body R n, ?_, rfl⟩⟩
  exact Circuit.appendAll_eq_ok_iff.2 ⟨fun s hs => fits_steps hs, rfl⟩

theorem inverseTransform_eq (hn : 0 < n) :
    inverseTransform n = .ok (.inverted (.composite (body R n))) := by
  have htransform : transform n = .ok (.composite (body R n)) := transform_eq hn
  have hmade : (body R n).MadeOf fun g => g.isUnitary = true :=
    madeOf_transform (fun _ => rfl) (fun _ _ => rfl) htransform
  have hunitary : (Operation.composite (body R n)).isUnitary = true :=
    (isUnitary_iff false _).2 fun g hg => hmade.gates false g hg
  refine bind_eq_ok_iff.2 ⟨_, htransform, bind_eq_ok_iff.2 ⟨(), ?_, rfl⟩⟩
  exact checkInvertible_eq_ok_iff.2 hunitary

section Run

variable [EigenSolver ℝ]

theorem means_swap :
    (Operation.primitive (.fixed .swap)).Means (d := 2) (exchange.toMatrix 4 4) := .uncontrolled rfl rfl rfl

theorem stepsMeaning_exchanges (hc : c ≤ n / 2) (v : Fin (2 ^ n) → ℂ) (i : Fin (2 ^ n)) :
    ∃ j : Fin (2 ^ n), (∀ w < n, j.val.testBit w = i.val.testBit (endsReversed n c w)) ∧
      (stepsMeaning n ((List.range c).map fun k => .fixed .swap [k, n - 1 - k]) *ᵥ v) i = v j := by
  induction c generalizing i with
  | zero =>
    refine ⟨i, fun w _ => ?_, ?_⟩
    · have hnone : ¬ (w < 0 ∨ n - 1 - w < 0) := by omega
      rw [endsReversed, if_neg hnone]
    · change ((1 : Operator n) *ᵥ v) i = v i
      rw [one_mulVec]
  | succ c ih =>
    have hsel := selects_ends (Nat.lt_of_succ_le hc)
    obtain ⟨j, hj, hvalue⟩ := ih (Nat.le_of_succ_le hc) (write [c, n - 1 - c] i (Basis.read 2 [n - 1 - c, c] i.val))
    refine ⟨j, fun w hw => ?_, ?_⟩
    · rw [hj w hw, testBit_exchange hsel, endsReversed_succ (Nat.lt_of_succ_le hc) hw]
    · rw [List.range_succ, List.map_append, stepsMeaning_append, List.map_singleton, stepsMeaning_singleton,
        ← mulVec_mulVec, ← hvalue]
      have hlast : (placed [] [c, n - 1 - c] (Operation.primitive (.fixed .swap)).meaning : Operator n) = _ :=
        means_swap.placed_eq [] [c, n - 1 - c]
      change (placed [] [c, n - 1 - c] (Operation.primitive (.fixed .swap)).meaning *ᵥ _) i = _
      rw [hlast, placed_exchange_mulVec hsel]

theorem stepsMeaning_reversal (v : Fin (2 ^ n) → ℂ) :
    stepsMeaning n (reversal n) *ᵥ v = fun i => v (reversed i) := by
  funext i
  obtain ⟨j, hj, hvalue⟩ := stepsMeaning_exchanges le_rfl v i
  have hall : j = reversed i := by
    apply ext_testBit
    intro w hw
    have hends : endsReversed n (n / 2) w = n - 1 - w := by
      unfold endsReversed
      split <;> omega
    rw [hj w hw, hends, testBit_reversed i hw]
  rw [← hall]
  exact hvalue

theorem means_cphase (θ : ℝ) : (Operation.primitive (.angle .cphase (.value θ))).Means
    (placed (d := 1) [(0, true)] [1] ((phase θ).toMatrix 2 2) : Operator 2) :=
  Means.primitive (g := .angle .cphase (.value θ)) (d := 2) (k := 1) rfl rfl rfl

theorem stepsMeaning_phases (hc : k + c < n) :
    stepsMeaning n ((List.range' (k + 1) c).map fun (j : ℕ) =>
        .gate (.cphase (.value (Scalar.pi / Scalar.twoPower ((j : ℤ) - k)))) [k, j]) =
      diagonal fun i : Fin (2 ^ n) => if i.val.testBit k then
        root n ^ (2 ^ (n - 1 - c) * gather i.val (List.range' (k + 1) c).reverse) else 1 := by
  induction c with
  | zero =>
    change (1 : Operator n) = _
    simp
  | succ c ih =>
    have hsel : Selects n 2 [k, k + 1 + c] := selects_pair (by omega) (by omega) (by omega)
    have hangle : (Scalar.pi : ℝ) / Scalar.twoPower (((k + 1 + c : ℕ) : ℤ) - k) = Real.pi / 2 ^ (c + 1) := by
      have hdistance : ((k + 1 + c : ℕ) : ℤ) - k = (c + 1 : ℕ) := by
        push_cast
        ring
      rw [hdistance, Scalar.twoPower_real, zpow_natCast]
      rfl
    have hmeans := means_cphase ((Scalar.pi : ℝ) / Scalar.twoPower (((k + 1 + c : ℕ) : ℤ) - k))
    have hlast : stepsMeaning n [.gate (.cphase (.value (Scalar.pi / Scalar.twoPower (((k + 1 + c : ℕ) : ℤ) - k))))
        [k, k + 1 + c]] = diagonal fun i : Fin (2 ^ n) => if i.val.testBit k && i.val.testBit (k + 1 + c) then
          root n ^ 2 ^ (n - 1 - (c + 1)) else 1 := by
      rw [stepsMeaning_singleton]
      refine (hmeans.placed_eq [] [k, k + 1 + c]).trans ?_
      rw [placed_placed hsel (selects_singleton Nat.one_lt_two) (by decide), ← exp_half_turn (by omega), hangle]
      exact placed_phase hsel _
    rw [List.range'_concat, Nat.one_mul, List.map_append, stepsMeaning_append, ih (by omega), List.map_singleton,
      hlast, diagonal_mul_diagonal, List.reverse_append]
    refine congrArg diagonal (funext fun i => ?_)
    -- The new wire is the lowest bit, so that what the wires before it read counts twice.
    have hdouble : 2 ^ (n - 1 - c) = 2 ^ (n - 1 - (c + 1)) * 2 := by
      rw [← pow_succ]
      congr 1
      omega
    cases i.val.testBit k
    · simp
    · rw [hdouble, List.reverse_singleton, List.singleton_append, gather, mul_add, ← mul_assoc, pow_add]
      cases i.val.testBit (k + 1 + c) <;> simp

theorem stepsMeaning_stage (hk : k < n) :
    stepsMeaning n (stage n k) = diagonal (fun i : Fin (2 ^ n) => turn n k i.val) *
      placed (d := 1) [] [k] (hadamard.toMatrix 2 2) := by
  have hcount : n - (k + 1) = n - 1 - k := by omega
  have hpow : n - 1 - (n - 1 - k) = k := by omega
  have hphases := stepsMeaning_phases (n := n) (k := k) (c := n - 1 - k) (by omega)
  rw [hpow] at hphases
  unfold stage
  change stepsMeaning n (_ :: _) = _
  rw [stepsMeaning, hcount, hphases]
  exact congrArg _ (means_hadamard.placed_eq [] [k])

theorem stepsMeaning_stages {m : ℕ} (h : k + m = n) :
    stepsMeaning n ((List.range' k m).flatMap (stage n)) = dftFrom n k := by
  induction m generalizing k with
  | zero =>
    obtain rfl : k = n := h
    rw [dftFrom_self]
    rfl
  | succ m ih =>
    have hk : k < n := by omega
    rw [List.range'_succ, List.flatMap_cons, stepsMeaning_append, ih (by omega), stepsMeaning_stage hk,
      dftFrom_succ hk]

theorem stepsMeaning_steps :
    stepsMeaning n (reversal n ++ (List.range n).flatMap (stage n)) = dft n := by
  apply ext_mulVec
  intro v
  have hstages : stepsMeaning n ((List.range n).flatMap (stage n)) = dftFrom n 0 := by
    rw [List.range_eq_range']
    exact stepsMeaning_stages (Nat.zero_add n)
  rw [stepsMeaning_append, ← mulVec_mulVec, stepsMeaning_reversal, hstages, dftFrom_zero_mulVec]

theorem means_body : (Operation.composite (body ℝ n)).Means (dft n) :=
  ⟨rfl, heq_of_eq stepsMeaning_steps⟩

theorem means_inverted : (Operation.inverted (.composite (body ℝ n))).Means (dft n)ᴴ :=
  ⟨rfl, heq_of_eq (congrArg conjTranspose stepsMeaning_steps)⟩

omit [EigenSolver ℝ] in
theorem dft_mem_unitary (hn : 0 < n) : dft n ∈ unitaryGroup (Fin (2 ^ n)) ℂ := by
  let _ := EigenSolver.spectral
  have := EigenSolver.orthonormalSpectra_spectral
  have htransform : transform n = .ok (.composite (body ℝ n)) := transform_eq hn
  have hmade : (body ℝ n).MadeOf Gate.IsNumeric :=
    madeOf_transform (fun _ => trivial) (fun _ _ => rfl) htransform
  rw [← stepsMeaning_steps]
  exact hmade.meaning_mem_unitary

theorem run_body (hn : 0 < n) {s : State ℝ} (hs : s.qubits = n) :
    (Operation.composite (body ℝ n)).run s = .ok (.ofVector (dft n *ᵥ s.vector n)) := by
  have hmade : (Operation.composite (body ℝ n)).MadeOf fun g => g.IsNumeric ∧ ¬ g.IsEvolution :=
    madeOf_transform (fun _ => ⟨trivial, not_false⟩) (fun _ _ => ⟨rfl, not_false⟩) (transform_eq hn)
  exact hmade.run_eq hn (@means_body n EigenSolver.spectral) hs

/-- The transform of a register is the normalised discrete Fourier transform of its amplitudes. The first
wire is the lowest bit on both sides. -/
theorem run_transform (hn : 1 ≤ n) :
    ∃ o, transform n = .ok o ∧
      (∀ x < 2 ^ n, ∃ r, o.run (.basis n x) = .ok r ∧ r.qubits = n ∧ ∀ y < 2 ^ n,
        (r.amp y).toComplex = ((2 : ℝ) ^ (-(n : ℝ) / 2) : ℝ) *
          Complex.exp (2 * Real.pi * Complex.I * (x * y / 2 ^ n))) ∧
      ∀ s : State ℝ, s.qubits = n → ∃ r, o.run s = .ok r ∧ r.qubits = n ∧ ∀ y < 2 ^ n,
        (r.amp y).toComplex = ((2 : ℝ) ^ (-(n : ℝ) / 2) : ℝ) *
          ∑ x ∈ Finset.range (2 ^ n),
            Complex.exp (2 * Real.pi * Complex.I * (x * y / 2 ^ n)) * (s.amp x).toComplex := by
  have htransform : transform n = .ok (.composite (body ℝ n)) := transform_eq hn
  have hrun (s : State ℝ) (hs : s.qubits = n) : ∃ r, (Operation.composite (body ℝ n)).run s = .ok r ∧
      r.qubits = n ∧ ∀ y < 2 ^ n, (r.amp y).toComplex = ((2 : ℝ) ^ (-(n : ℝ) / 2) : ℝ) *
        ∑ x ∈ Finset.range (2 ^ n),
          Complex.exp (2 * Real.pi * Complex.I * (x * y / 2 ^ n)) * (s.amp x).toComplex := by
    refine ⟨_, run_body hn hs, rfl, fun y hy => ?_⟩
    rw [State.amp_ofVector _ ⟨y, hy⟩, Cx.toComplex_ofComplex, dft_mulVec, ← Fin.sum_univ_eq_sum_range fun x : ℕ =>
      Complex.exp (2 * Real.pi * Complex.I * (x * y / 2 ^ n)) * (s.amp x).toComplex]
    rfl
  refine ⟨_, htransform, fun x hx => ?_, hrun⟩
  obtain ⟨r, hr, hqubits, hvalue⟩ := hrun (.basis n x) rfl
  refine ⟨r, hr, hqubits, fun y hy => ?_⟩
  rw [hvalue y hy, Finset.sum_eq_single_of_mem x (Finset.mem_range.2 hx)]
  · rw [State.basis, State.amp_ofFn _ _ hx, if_pos rfl, Cx.toComplex_one, mul_one]
  · intro z hz hne
    rw [State.basis, State.amp_ofFn _ _ (Finset.mem_range.1 hz), if_neg hne, Cx.toComplex_zero, mul_zero]

end Run

attribute [local instance] EigenSolver.spectral in
theorem run_transform_three :
    1 ≤ 3 ∧ ∃ o : Operation ℝ, transform 3 = .ok o ∧
      (∀ x < 2 ^ 3, ∃ r, o.run (.basis 3 x) = .ok r ∧ r.qubits = 3 ∧ ∀ y < 2 ^ 3,
        (r.amp y).toComplex = ((2 : ℝ) ^ (-((3 : ℕ) : ℝ) / 2) : ℝ) *
          Complex.exp (2 * Real.pi * Complex.I * (x * y / 2 ^ 3))) ∧
      ∀ s : State ℝ, s.qubits = 3 → ∃ r, o.run s = .ok r ∧ r.qubits = 3 ∧ ∀ y < 2 ^ 3,
        (r.amp y).toComplex = ((2 : ℝ) ^ (-((3 : ℕ) : ℝ) / 2) : ℝ) *
          ∑ x ∈ Finset.range (2 ^ 3),
            Complex.exp (2 * Real.pi * Complex.I * (x * y / 2 ^ 3)) * (s.amp x).toComplex :=
  ⟨by decide, run_transform (by decide)⟩

end Fourier
end QuantumCircuits
end
