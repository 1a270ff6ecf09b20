import Mathlib
import QuantumCircuits.Proofs.Algorithm.Fourier

/-! Phase estimation. Each counting wire multiplies an eigenvector by a power of its eigenvalue, so that
before the inverse transform the counting register holds the powers of the eigenvalue by its readings. -/

noncomputable section
namespace QuantumCircuits
open Matrix QuantumCircuits.Basis Operator Operation
open DenseMatrix (phase toMatrix_phase)

namespace Operator

variable {n d : ℕ} {wires : List ℕ} {m : Operator d} {z : ℂ} {φ : Fin (2 ^ n) → ℂ}

theorem pow_mulVec_of_eigenvector {a : Operator n} (h : a *ᵥ φ = z • φ) (e : ℕ) :
    (a ^ e) *ᵥ φ = z ^ e • φ := by
  induction e with
  | zero => rw [pow_zero, pow_zero, one_mulVec, one_smul]
  | succ e ih => rw [pow_succ, ← mulVec_mulVec, h, mulVec_smul, ih, smul_smul, ← pow_succ']

theorem controlled_mulVec_of_eigenvector (h : Selects n d wires) (hφ : placed [] wires m *ᵥ φ = z • φ)
    (c e : ℕ) (i : Fin (2 ^ n)) :
    (placed [(c, true)] wires (m ^ e) *ᵥ φ) i = z ^ (e * (i.val.testBit c).toNat) * φ i := by
  have hholds : holds [(c, true)] i.val = i.val.testBit c := by simp [holds]
  have hpower := congrFun (pow_mulVec_of_eigenvector hφ e) i
  rw [← placed_pow h (List.forall_mem_nil _), placed_nil_mulVec h] at hpower
  rw [placed_mulVec h, hholds]
  cases i.val.testBit c with
  | true =>
    rw [if_pos rfl, hpower, Bool.toNat_true, mul_one]
    rfl
  | false => rw [if_neg Bool.false_ne_true, Bool.toNat_false, mul_zero, pow_zero, one_mul]

theorem placed_mulVec_mul_of_eigenvector (h : Selects n d wires) (hφ : placed [] wires m *ᵥ φ = z • φ)
    {f : Fin (2 ^ n) → ℂ} (hf : ∀ i (b : Fin (2 ^ d)), f (write wires i b) = f i) :
    placed [] wires m *ᵥ (fun i => f i * φ i) = z • fun i => f i * φ i := by
  funext i
  have hvalue := congrFun hφ i
  rw [placed_nil_mulVec h] at hvalue ⊢
  simp only [hf, mul_left_comm _ (f i)]
  rw [← Finset.mul_sum, hvalue]
  exact mul_left_comm _ _ _

end Operator

namespace PhaseEstimation

section Build

variable {R : Type} [Scalar R] {n t : ℕ} {u : Operation R}

def countingStep (u : Operation R) (n i : ℕ) : Step (Operation R) :=
  ⟨.controlled (.powered u (1 <<< i)) (.allSet 1), (n + i) :: List.range' 0 n⟩

def body (n t : ℕ) (u : Operation R) : Circuit R :=
  ⟨"qpe", ⟨[⟨"b", n, 0⟩, ⟨"c", t, n⟩], n + t⟩,
    (List.range' n t).map (fun w => .fixed .h [w]) ++ (List.range' 0 t).map (countingStep u n) ++
      [⟨.inverted (.composite (Fourier.body R t)), List.range' n t⟩]⟩

omit [Scalar R] in
theorem countingSteps_eq (ht : t ≤ 32) (hunitary : u.isUnitary = true) :
    countingSteps u ⟨"b", n, 0⟩ ⟨"c", t, n⟩ = .ok ((List.range' 0 t).map (countingStep u n)) := by
  rw [countingSteps, List.range_eq_range', mapM_eq_ok_iff, List.forall₂_map_right_iff, List.forall₂_same]
  intro i hi
  have hi : i < 32 := by
    have hmem := List.mem_range'_1.1 hi
    dsimp only at hmem
    omega
  have hpower : u.powerOfTwo i = .ok (.powered u (1 <<< i)) := powerOfTwo_eq_ok_iff.2 ⟨hi, rfl⟩
  have hcontrol : (Operation.powered u (1 <<< i)).control 1 (.allSet 1) =
      .ok (.controlled (.powered u (1 <<< i)) (.allSet 1)) := if_pos hunitary
  exact bind_eq_ok_iff.2 ⟨_, hpower, bind_eq_ok_iff.2 ⟨_, hcontrol, rfl⟩⟩

theorem fits_body (hu : u.arity = n) : ∀ s ∈ (body n t u).steps, s.Fits (n + t) := by
  intro s hs
  rcases List.mem_append.1 hs with hs | hs
  · rcases List.mem_append.1 hs with hs | hs
    · obtain ⟨w, hw, rfl⟩ := List.mem_map.1 hs
      exact selects_singleton (List.mem_range'_1.1 hw).2
    · obtain ⟨i, hi, rfl⟩ := List.mem_map.1 hs
      have hi := (List.mem_range'_1.1 hi).2
      refine ⟨?_, ?_, ?_⟩
      · change (List.range' 0 n).length + 1 = u.arity + 1
        rw [List.length_range', hu]
      · refine List.nodup_cons.2 ⟨fun hmem => ?_, List.nodup_range'⟩
        have hmem := (List.mem_range'_1.1 hmem).2
        omega
      · refine List.forall_mem_cons.2 ⟨by omega, fun w hw => ?_⟩
        have hw := (List.mem_range'_1.1 hw).2
        omega
  · obtain rfl := List.mem_singleton.1 hs
    exact Selects.range' rfl

theorem phaseEstimation_eq (hn : 0 < n) (ht : 0 < t) (hlimit : t ≤ 32) (hu : u.arity = n)
    (hunitary : u.isUnitary = true) : phaseEstimation n t u = .ok (.composite (body n t u)) := by
  have hc : Circuit.addRegister (⟨"qpe", ⟨[⟨"b", n, 0⟩], n⟩, []⟩ : Circuit R) "c" t =
      .ok (⟨"c", t, n⟩, { body n t u with steps := [] }) :=
    Circuit.addRegister_eq_ok_iff.2 ⟨ht, rfl, rfl⟩
  have hfits := fits_body (t := t) hu
  -- All three groups of steps fit, so that each of them can be appended.
  have happend {done steps : List (Step (Operation R))} (hsub : ∀ s ∈ steps, s ∈ (body n t u).steps) :
      Circuit.appendAll { body n t u with steps := done } steps =
        .ok { body n t u with steps := done ++ steps } :=
    Circuit.appendAll_eq_ok_iff.2 ⟨fun s hs => hfits s (hsub s hs), rfl⟩
  unfold phaseEstimation
  rw [if_neg (not_not.2 hu)]
  refine bind_eq_ok_iff.2 ⟨_, Circuit.addRegister_empty hn "qpe" "b", bind_eq_ok_iff.2 ⟨_, hc, ?_⟩⟩
  refine bind_eq_ok_iff.2 ⟨_, happend fun s hs => ?_, ?_⟩
  · exact List.mem_append_left _ (List.mem_append_left _ hs)
  refine bind_eq_ok_iff.2 ⟨_, countingSteps_eq hlimit hunitary, bind_eq_ok_iff.2 ⟨_, happend fun s hs => ?_, ?_⟩⟩
  · exact List.mem_append_left _ (List.mem_append_right _ hs)
  refine bind_eq_ok_iff.2 ⟨_, Fourier.inverseTransform_eq ht, bind_eq_ok_iff.2 ⟨_, happend fun s hs => ?_, ?_⟩⟩
  · exact List.mem_append_right _ hs
  · rfl

end Build

variable {n d t : ℕ}

theorem stepsMeaning_counting [EigenSolver ℝ] {wires : List ℕ} {m : Operator d} {z : ℂ} {first count k : ℕ}
    {steps : List (Step (Operation ℝ))} (hwires : Selects n d wires)
    (hfree : ∀ w, first ≤ w → w ∉ wires) (fits : ∀ s ∈ steps, s.Fits n)
    (h : List.Forall₂ (fun (i : ℕ) (s : Step (Operation ℝ)) => s.wires = (first + i) :: wires ∧
      s.operation.Means (placed [(0, true)] (List.range' 1 d) (m ^ 2 ^ i) : Operator (1 + d)))
      (List.range' k count) steps)
    {φ : Fin (2 ^ n) → ℂ} (hφ : placed [] wires m *ᵥ φ = z • φ) (i : Fin (2 ^ n)) :
    (stepsMeaning n steps *ᵥ φ) i = z ^ (2 ^ k * gather i.val (List.range' (first + k) count)) * φ i := by
  induction count generalizing k steps φ with
  | zero =>
    cases h
    change ((1 : Operator n) *ᵥ φ) i = z ^ (2 ^ k * 0) * φ i
    rw [one_mulVec, mul_zero, pow_zero, one_mul]
  | succ count ih =>
    obtain ⟨⟨o, _⟩, rest, ⟨hlist, hmeans⟩, hrest, rfl⟩ := List.forall₂_cons_left_iff.1 h
    obtain rfl : _ = _ := hlist
    obtain ⟨hfit, hfits⟩ := List.forall_mem_cons.1 fits
    have hsel : Selects n (1 + d) ((first + k) :: wires) := hmeans.arity ▸ hfit
    have hfirst : (placed [] ((first + k) :: wires) o.meaning : Operator n) =
        placed [(first + k, true)] wires (m ^ 2 ^ k) := by
      rw [hmeans.placed_eq, placed_placed hsel (Selects.range' rfl) (by simp),
        Instruction.outer_range' (by simp [hwires.length, Nat.add_comm])]
      rfl
    -- The factor of this wire goes into the vector. It is still an eigenvector for the steps after it.
    let f (i : Fin (2 ^ n)) : ℂ := z ^ (2 ^ k * (i.val.testBit (first + k)).toNat)
    have hf (i : Fin (2 ^ n)) (b : Fin (2 ^ d)) : f (write wires i b) = f i := by
      simp only [f, hwires.testBit_write_of_not_mem i b (hfree (first + k) (Nat.le_add_right _ _))]
    have hstep : placed [] ((first + k) :: wires) o.meaning *ᵥ φ = fun i => f i * φ i := by
      rw [hfirst]
      exact funext fun i => controlled_mulVec_of_eigenvector hwires hφ _ _ i
    have hexponent : 2 ^ (k + 1) * gather i.val (List.range' (first + (k + 1)) count) +
        2 ^ k * (i.val.testBit (first + k)).toNat =
          2 ^ k * gather i.val (List.range' (first + k) (count + 1)) := by
      rw [List.range'_succ, gather, pow_succ, Nat.add_assoc]
      ring
    rw [stepsMeaning, ← mulVec_mulVec, hstep, ih hfits hrest (placed_mulVec_mul_of_eigenvector hwires hφ hf),
      ← mul_assoc, ← pow_add, hexponent]

def amplitude (z : ℂ) (y : Fin (2 ^ t)) : ℂ := ∑ x : Fin (2 ^ t), (dft t)ᴴ y x * (spread ^ t * z ^ x.val)

theorem conjTranspose_dft_apply (y x : Fin (2 ^ t)) (θ : ℝ) :
    (dft t)ᴴ y x * (spread ^ t * Complex.exp (2 * Real.pi * Complex.I * θ) ^ x.val) =
      1 / 2 ^ t * Complex.exp (2 * Real.pi * Complex.I * (x.val * (θ - y.val / 2 ^ t))) := by
  have hscale : spread ^ t * spread ^ t = 1 / 2 ^ t := by
    rw [← mul_pow, spread_mul_spread, div_pow, one_pow]
  have hconj : star (root t ^ (x.val * y.val)) =
      Complex.exp (-(2 * Real.pi * Complex.I * (x.val * y.val / 2 ^ t))) := by
    have htwo : (starRingEnd ℂ) 2 = 2 := Complex.conj_ofNat 2
    rw [root_pow, Complex.star_def, ← Complex.exp_conj]
    congr 1
    simp [htwo]
  rw [conjTranspose_apply, dft, star_mul', star_pow, star_spread, hconj, ← Complex.exp_nat_mul]
  rw [mul_mul_mul_comm, hscale, ← Complex.exp_add]
  congr 2
  ring

theorem amplitude_turns (θ : ℝ) (y : Fin (2 ^ t)) : amplitude (Complex.exp (2 * Real.pi * Complex.I * θ)) y =
    1 / 2 ^ t * ∑ x ∈ Finset.range (2 ^ t), Complex.exp (2 * Real.pi * Complex.I * (x * (θ - y.val / 2 ^ t))) := by
  have hsum := Fin.sum_univ_eq_sum_range
    (fun x : ℕ => Complex.exp (2 * Real.pi * Complex.I * (x * (θ - y.val / 2 ^ t)))) (2 ^ t)
  rw [amplitude]
  simp only [conjTranspose_dft_apply]
  rw [← Finset.mul_sum, hsum]

theorem amplitude_exact (ht : 0 < t) (k y : Fin (2 ^ t)) :
    amplitude (Complex.exp (2 * Real.pi * Complex.I * ((k.val / 2 ^ t : ℝ) : ℂ))) y = if y = k then 1 else 0 := by
  have hcolumn (x : Fin (2 ^ t)) :
      spread ^ t * Complex.exp (2 * Real.pi * Complex.I * ((k.val / 2 ^ t : ℝ) : ℂ)) ^ x.val = dft t x k := by
    rw [dft, root_pow, ← Complex.exp_nat_mul]
    congr 2
    push_cast
    ring
  have hunitary : (dft t)ᴴ * dft t = 1 := mem_unitaryGroup_iff'.1 (Fourier.dft_mem_unitary ht)
  rw [amplitude]
  simp only [hcolumn]
  rw [← Matrix.mul_apply, hunitary, Matrix.one_apply]

theorem selects_input : Selects (n + t) n (List.range' 0 n) :=
  (Selects.range' (Nat.zero_add n)).mono (Nat.le_add_right n t)

theorem disjoint_counting : ∀ w ∈ List.range' 0 n, w ∉ List.range' n t := by
  intro w hw hmem
  have hlow := (List.mem_range'_1.1 hw).2
  have hhigh := (List.mem_range'_1.1 hmem).1
  omega

theorem testBit_reading {i : Fin (2 ^ (n + t))} {j : Fin (2 ^ n)} {y : Fin (2 ^ t)} (h : i.val = j + 2 ^ n * y)
    (w : ℕ) : i.val.testBit w = if w < n then j.val.testBit w else y.val.testBit (w - n) := by
  rw [h, testBit_split j.isLt]

theorem read_input {i : Fin (2 ^ (n + t))} {j : Fin (2 ^ n)} {y : Fin (2 ^ t)} (h : i.val = j + 2 ^ n * y) :
    Basis.read n (List.range' 0 n) i.val = j := by
  apply ext_testBit
  intro w hw
  have hget : (List.range' 0 n).getD w 0 = w := by simp [hw]
  rw [(selects_input (t := t)).testBit_read _ hw, hget, testBit_reading h, if_pos hw]

theorem read_counting {i : Fin (2 ^ (n + t))} {j : Fin (2 ^ n)} {y : Fin (2 ^ t)} (h : i.val = j + 2 ^ n * y) :
    Basis.read t (List.range' n t) i.val = y := by
  apply ext_testBit
  intro w hw
  have hget : (List.range' n t).getD w 0 = n + w := by simp [hw]
  have hhigh : ¬ n + w < n := by omega
  rw [(Selects.range' rfl).testBit_read _ hw, hget, testBit_reading h, if_neg hhigh, Nat.add_sub_cancel_left]

theorem val_write_counting (i : Fin (2 ^ (n + t))) :
    (write (List.range' n t) i (state t 0)).val = (Basis.read n (List.range' 0 n) i.val).val := by
  have hcounting : Selects (n + t) t (List.range' n t) := Selects.range' rfl
  apply Nat.eq_of_testBit_eq
  intro w
  by_cases hw : w < n
  · have hget : (List.range' 0 n).getD w 0 = w := by simp [hw]
    have hmem : w ∉ List.range' n t := disjoint_counting w (by simp [hw])
    rw [hcounting.testBit_write_of_not_mem _ _ hmem, (selects_input (t := t)).testBit_read _ hw, hget]
  · have hlarge : 2 ^ n ≤ 2 ^ w := Nat.pow_le_pow_right Nat.two_pos (not_lt.1 hw)
    rw [Nat.testBit_lt_two_pow ((Basis.read n (List.range' 0 n) i.val).isLt.trans_le hlarge)]
    by_cases hmem : w < n + t
    · have hget : (List.range' n t).getD (w - n) 0 = w := by
        have hlen : w - n < t := by omega
        simp [hlen]
        omega
      have hvalue := hcounting.testBit_write_getD i (state t 0) (j := w - n) (by omega)
      rw [hget, testBit_state, Nat.zero_testBit, Bool.and_false] at hvalue
      exact hvalue
    · exact Nat.testBit_lt_two_pow ((write (List.range' n t) i (state t 0)).isLt.trans_le
        (Nat.pow_le_pow_right Nat.two_pos (not_lt.1 hmem)))

section Run

variable [EigenSolver ℝ] {u : Operation ℝ} {v : State ℝ} {m : Operator n} {θ : ℝ}

theorem means_countingStep (hm : u.Means m) (i : ℕ) :
    (countingStep u n i).operation.Means (placed [(0, true)] (List.range' 1 n) (m ^ 2 ^ i) : Operator (1 + n)) := by
  have hmeans := (hm.powered (1 <<< i)).controlled (.allSet 1)
  rw [Nat.one_shiftLeft] at hmeans
  rw [Nat.add_comm 1 n]
  exact Nat.one_shiftLeft i ▸ hmeans

theorem stepsMeaning_body_mulVec (hm : u.Means m) (hv : v.qubits = n)
    (heigen : m *ᵥ v.vector n = Complex.exp (2 * Real.pi * Complex.I * θ) • v.vector n)
    {i : Fin (2 ^ (n + t))} {j : Fin (2 ^ n)} {y : Fin (2 ^ t)} (hi : i.val = j + 2 ^ n * y) :
    (stepsMeaning (n + t) (body n t u).steps *ᵥ (v.extend (n + t)).vector (n + t)) i =
      amplitude (Complex.exp (2 * Real.pi * Complex.I * θ)) y * v.vector n j := by
  have hcounting : Selects (n + t) t (List.range' n t) := Selects.range' rfl
  let φ (i : Fin (2 ^ (n + t))) : ℂ := spread ^ t * v.vector n (Basis.read n (List.range' 0 n) i.val)
  have hspread : hadamards (n + t) (List.range' n t) *ᵥ (v.extend (n + t)).vector (n + t) = φ := by
    funext i
    rw [hadamards_mulVec hcounting fun k w hw =>
      State.vector_extend_of_testBit (hv.le.trans (List.mem_range'_1.1 hw).1), State.vector_extend, val_write_counting]
    rfl
  have hφ : placed [] (List.range' 0 n) m *ᵥ φ = Complex.exp (2 * Real.pi * Complex.I * θ) • φ := by
    funext i
    have hvalue := congrFun heigen (Basis.read n (List.range' 0 n) i.val)
    rw [mulVec, dotProduct] at hvalue
    rw [placed_nil_mulVec selects_input]
    simp only [φ, selects_input.read_write, mul_left_comm _ (spread ^ t)]
    rw [← Finset.mul_sum, hvalue]
    exact mul_left_comm _ _ _
  have hsteps : List.Forall₂ (fun (i : ℕ) (s : Step (Operation ℝ)) => s.wires = (n + i) :: List.range' 0 n ∧
      s.operation.Means (placed [(0, true)] (List.range' 1 n) (m ^ 2 ^ i) : Operator (1 + n)))
      (List.range' 0 t) ((List.range' 0 t).map (countingStep u n)) := by
    rw [List.forall₂_map_right_iff, List.forall₂_same]
    exact fun i _ => ⟨rfl, means_countingStep hm i⟩
  have hfree (w : ℕ) (hw : n ≤ w) : w ∉ List.range' 0 n := fun hmem => by
    have hlow := (List.mem_range'_1.1 hmem).2
    omega
  have hfits : ∀ s ∈ (List.range' 0 t).map (countingStep u n), s.Fits (n + t) := fun s hs =>
    fits_body hm.arity s (List.mem_append_left _ (List.mem_append_right _ hs))
  have hcount (i : Fin (2 ^ (n + t))) :
      (stepsMeaning (n + t) ((List.range' 0 t).map (countingStep u n)) *ᵥ φ) i =
        Complex.exp (2 * Real.pi * Complex.I * θ) ^ gather i.val (List.range' n t) * φ i := by
    have hvalue := stepsMeaning_counting selects_input hfree hfits hsteps hφ i
    rwa [pow_zero, one_mul, Nat.add_zero] at hvalue
  have hlast : stepsMeaning (n + t) [⟨.inverted (.composite (Fourier.body ℝ t)), List.range' n t⟩] =
      placed [] (List.range' n t) (dft t)ᴴ := by
    rw [stepsMeaning_singleton, Fourier.means_inverted.placed_eq]
  have hterm (x : Fin (2 ^ t)) :
      (stepsMeaning (n + t) ((List.range' 0 t).map (countingStep u n)) *ᵥ φ) (write (List.range' n t) i x) =
        spread ^ t * Complex.exp (2 * Real.pi * Complex.I * θ) ^ x.val * v.vector n j := by
    have hreading : gather (write (List.range' n t) i x).val (List.range' n t) = x.val := by
      rw [← hcounting.val_read, hcounting.read_write]
    have hinput : Basis.read n (List.range' 0 n) (write (List.range' n t) i x).val = j := by
      rw [hcounting.read_write_of_disjoint disjoint_counting, read_input hi]
    rw [hcount, hreading]
    simp only [φ, hinput]
    rw [← mul_assoc, mul_comm (_ ^ x.val)]
  rw [body, stepsMeaning_append, stepsMeaning_append, stepsMeaning_hadamards, hlast, ← mulVec_mulVec, ← mulVec_mulVec,
    hspread, placed_nil_mulVec hcounting, read_counting hi]
  simp only [hterm]
  rw [amplitude, Finset.sum_mul]
  simp only [mul_assoc]

/-- Phase estimation of an eigenvector leaves the eigenvector on its wires and the counting register with
the amplitudes of its phase. A phase that the register can hold is read exactly. -/
theorem run_phaseEstimation [SquareSpectra ℝ] (hn : 1 ≤ n) (ht : 1 ≤ t) (hlimit : t ≤ 32) (hbuilt : u.Built)
    (harity : u.arity = n) (hpure : u.IsPure) (hv : v.qubits = n)
    (heigen : ∃ w, u.run v = .ok w ∧ ∀ j < 2 ^ n,
      (w.amp j).toComplex = Complex.exp (2 * Real.pi * Complex.I * θ) * (v.amp j).toComplex) :
    ∃ o s r, phaseEstimation n t u = .ok o ∧ v.embed (n + t) = .ok s ∧
      (n + t < UInt32.size → v.embedInWidth (n + t) = .ok s) ∧ o.run s = .ok r ∧ r.qubits = n + t ∧
      (∀ j < 2 ^ n, ∀ y < 2 ^ t,
        (r.amp (j + 2 ^ n * y)).toComplex = (v.amp j).toComplex * (1 / 2 ^ t *
          ∑ x ∈ Finset.range (2 ^ t), Complex.exp (2 * Real.pi * Complex.I * (x * (θ - y / 2 ^ t))))) ∧
      ∀ k : ℕ, k < 2 ^ t → θ = k / 2 ^ t → ∀ j < 2 ^ n, ∀ y < 2 ^ t,
        r.amp (j + 2 ^ n * y) = if y = k then v.amp j else 0 := by
  subst harity
  have hwell := hbuilt.wellFormed
  have hsuccess : phaseEstimation u.arity t u = .ok (.composite (body u.arity t u)) :=
    phaseEstimation_eq hn ht hlimit rfl hpure.resets
  have hmade : (body u.arity t u).MadeOf Gate.IsPure :=
    madeOf_phaseEstimation (fun _ => ⟨rfl, rfl, nofun⟩) (fun _ _ => ⟨rfl, rfl, nofun⟩) (hpure.madeOf hwell) hsuccess
  have hmap : u.meaning *ᵥ v.vector u.arity = Complex.exp (2 * Real.pi * Complex.I * θ) • v.vector u.arity := by
    obtain ⟨w, hw, hvalue⟩ := heigen
    rw [hwell.run_eq (hpure.madeOf hwell).isExact_of_isPure hn (.refl u) hv] at hw
    obtain rfl := Except.ok.inj hw
    funext j
    have hentry := hvalue j j.isLt
    rwa [State.amp_ofVector, Cx.toComplex_ofComplex] at hentry
  have hembed : v.embed (u.arity + t) = .ok (v.extend (u.arity + t)) := if_neg (by omega)
  have hmeans : (Operation.composite (body u.arity t u)).Means (stepsMeaning (u.arity + t) (body u.arity t u).steps) :=
    ⟨rfl, .rfl⟩
  have hrun := hmade.wellFormed.run_eq hmade.isExact_of_isPure (Nat.add_pos_left hn t) hmeans
    (s := v.extend (u.arity + t)) rfl
  have hvalue (j : ℕ) (hj : j < 2 ^ u.arity) (y : ℕ) (hy : y < 2 ^ t) :
      (State.ofVector (stepsMeaning (u.arity + t) (body u.arity t u).steps *ᵥ
        (v.extend (u.arity + t)).vector (u.arity + t))).amp (j + 2 ^ u.arity * y) =
          .ofComplex (amplitude (Complex.exp (2 * Real.pi * Complex.I * θ)) ⟨y, hy⟩ * (v.amp j).toComplex) := by
    rw [State.amp_ofVector _ ⟨_, split_lt hj hy⟩,
      stepsMeaning_body_mulVec (.refl u) hv hmap (j := ⟨j, hj⟩) (y := ⟨y, hy⟩) rfl]
    rfl
  refine ⟨_, _, _, hsuccess, hembed, fun hsize => (v.embedInWidth_eq_embed hsize).trans hembed, hrun, rfl,
    fun j hj y hy => ?_, ?_⟩
  · rw [hvalue j hj y hy, Cx.toComplex_ofComplex, amplitude_turns, mul_comm]
  · rintro k hk rfl j hj y hy
    rw [hvalue j hj y hy, amplitude_exact ht ⟨k, hk⟩]
    simp only [Fin.mk.injEq]
    split
    · rw [one_mul, Cx.ofComplex_toComplex]
    · rw [zero_mul]
      rfl

end Run

def quarterTurn : Operation ℝ := .primitive (.angle .phase (.value (Scalar.half Scalar.pi)))

theorem quarterTurn_built : quarterTurn.Built :=
  ⟨[.primitive (.angle .phase (.value (Scalar.half Scalar.pi)))], List.mem_singleton.2 rfl⟩

theorem isPure_quarterTurn : quarterTurn.IsPure :=
  ⟨rfl, rfl, List.forall_mem_singleton.2 nofun⟩

attribute [local instance] EigenSolver.spectral in
theorem run_quarterTurn :
    ∃ w, quarterTurn.run (.basis 1 1) = .ok w ∧ ∀ j < 2 ^ 1, (w.amp j).toComplex =
      Complex.exp (2 * Real.pi * Complex.I * ((1 / 2 ^ 2 : ℝ) : ℂ)) * ((State.basis 1 1 : State ℝ).amp j).toComplex := by
  have := EigenSolver.orthonormalSpectra_spectral
  have hmeans : quarterTurn.Means (d := 1) ((phase (Scalar.half Scalar.pi)).toMatrix 2 2) :=
    .uncontrolled rfl rfl rfl
  have hmade := isPure_quarterTurn.madeOf quarterTurn_built.wellFormed
  refine ⟨_, hmade.wellFormed.run_eq hmade.isExact_of_isPure Nat.one_pos hmeans rfl, fun j hj => ?_⟩
  have hangle : Complex.exp ((Scalar.half Scalar.pi : ℝ) * Complex.I) =
      Complex.exp (2 * Real.pi * Complex.I * ((1 / 2 ^ 2 : ℝ) : ℂ)) := by
    have hpi : (Scalar.pi : ℝ) = Real.pi := rfl
    rw [Scalar.half_real, hpi]
    congr 1
    push_cast
    ring
  have hzero : (State.basis 1 1 : State ℝ).vector 1 0 = 0 := rfl
  have hone : (State.basis 1 1 : State ℝ).vector 1 1 = 1 := rfl
  rw [State.amp_ofVector _ ⟨j, hj⟩, Cx.toComplex_ofComplex, toMatrix_phase, hangle]
  change ∑ k : Fin 2, !![1, 0; 0, _] (⟨j, hj⟩ : Fin 2) k * (State.basis 1 1 : State ℝ).vector 1 k = _
  rw [Fin.sum_univ_two, hzero, hone, mul_zero, zero_add, mul_one]
  obtain rfl | rfl : j = 0 ∨ j = 1 := by omega
  · exact (mul_zero _).symm
  · exact (mul_one _).symm

attribute [local instance] EigenSolver.spectral in
theorem run_phaseEstimation_quarterTurn :
    1 ≤ 1 ∧ 1 ≤ 2 ∧ 2 ≤ 32 ∧ quarterTurn.Built ∧ quarterTurn.arity = 1 ∧ quarterTurn.IsPure ∧
      (State.basis 1 1 : State ℝ).qubits = 1 ∧
      (∃ w, quarterTurn.run (.basis 1 1) = .ok w ∧ ∀ j < 2 ^ 1, (w.amp j).toComplex =
        Complex.exp (2 * Real.pi * Complex.I * ((1 / 2 ^ 2 : ℝ) : ℂ)) *
          ((State.basis 1 1 : State ℝ).amp j).toComplex) ∧
      ∃ o s r, phaseEstimation 1 2 quarterTurn = .ok o ∧ (State.basis 1 1).embed (1 + 2) = .ok s ∧
        (1 + 2 < UInt32.size → (State.basis 1 1).embedInWidth (1 + 2) = .ok s) ∧
        o.run s = .ok r ∧ r.qubits = 1 + 2 ∧
        (∀ j < 2 ^ 1, ∀ y < 2 ^ 2,
          (r.amp (j + 2 ^ 1 * y)).toComplex = ((State.basis 1 1).amp j).toComplex * (1 / 2 ^ 2 *
            ∑ x ∈ Finset.range (2 ^ 2),
              Complex.exp (2 * Real.pi * Complex.I * (x * (((1 / 2 ^ 2 : ℝ) : ℂ) - y / 2 ^ 2))))) ∧
        ∀ k : ℕ, k < 2 ^ 2 → (1 / 2 ^ 2 : ℝ) = k / 2 ^ 2 → ∀ j < 2 ^ 1, ∀ y < 2 ^ 2,
          r.amp (j + 2 ^ 1 * y) = if y = k then (State.basis 1 1).amp j else 0 :=
  have := EigenSolver.orthonormalSpectra_spectral
  ⟨le_rfl, one_le_two, by decide, quarterTurn_built, rfl, isPure_quarterTurn, rfl, run_quarterTurn,
    run_phaseEstimation le_rfl one_le_two (by decide) quarterTurn_built rfl isPure_quarterTurn rfl run_quarterTurn⟩

end PhaseEstimation
end QuantumCircuits
end
