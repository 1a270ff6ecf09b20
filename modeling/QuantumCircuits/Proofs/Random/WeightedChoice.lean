import Mathlib
import QuantumCircuits.Proofs.Random.Draws
import QuantumCircuits.Proofs.Success
import QuantumCircuits.Random.Weighted

/-! The index that a draw selects. The sums of the first weights cut the interval from zero to the sum of all
weights into pieces as long as the weights, and the index is the piece that the point of the draw falls into. -/

namespace QuantumCircuits.WeightedChoice

section Size

variable {R : Type} [Scalar R]

theorem size_accumulate {choice result : WeightedChoice R} {weights : List R}
    (h : accumulate choice weights = .ok result) : result.bounds.size = choice.bounds.size + weights.length := by
  induction weights generalizing choice with
  | nil =>
    cases h
    rfl
  | cons w ws ih =>
    unfold accumulate at h
    split at h
    · rw [ih h, Array.size_push, List.length_cons]
      omega
    · cases h

theorem size_ofWeights {choice : WeightedChoice R} {weights : List R} (h : ofWeights weights = .ok choice) :
    choice.bounds.size + 1 = weights.length := by
  cases weights with
  | nil => cases h
  | cons w ws =>
    by_cases hw : (0 : R) ≤ w
    · rw [ofWeights, if_pos hw] at h
      obtain ⟨result, hresult, h⟩ := bind_eq_ok_iff.1 h
      split at h
      · cases h
      · obtain rfl := pure_eq_ok_iff.1 h
        rw [size_accumulate hresult, List.length_cons, Array.size_empty, Nat.zero_add]
    · rw [ofWeights, if_neg hw] at h
      cases h

theorem firstFailure_le (test : ℕ → Bool) {low high : ℕ} (h : low ≤ high) : firstFailure test low high ≤ high := by
  fun_induction firstFailure test low high with
  | case1 low high hlt middle success ih => exact ih (by omega)
  | case2 low high hlt middle failure ih =>
    have hbelow := ih (by omega)
    omega
  | case3 low high hge => exact h

theorem index_le (choice : WeightedChoice R) (u : R) : choice.index u ≤ choice.bounds.size :=
  firstFailure_le _ (Nat.zero_le _)

end Size

noncomputable section

variable {choice result : WeightedChoice ℝ} {weights : List ℝ}

theorem sum_take_mono (h : ∀ w ∈ weights, 0 ≤ w) {i j : ℕ} (hij : i ≤ j) :
    (weights.take i).sum ≤ (weights.take j).sum :=
  (List.take_sublist_take_left hij).sum_le_sum fun w hw => h w (List.mem_of_mem_take hw)

theorem sum_take_add_one (weights : List ℝ) (k : ℕ) :
    (weights.take (k + 1)).sum = (weights.take k).sum + weights.getD k 0 := by
  rw [List.take_add_one, List.sum_append, List.getD_eq_getElem?_getD]
  cases weights[k]? <;> simp

theorem sum_take_le (h : ∀ w ∈ weights, 0 ≤ w) (k : ℕ) : (weights.take k).sum ≤ weights.sum :=
  (List.take_sublist k weights).sum_le_sum h

def Covers (weights : List ℝ) (point : ℝ) (k : ℕ) : Prop :=
  (weights.take k).sum ≤ point ∧ point < (weights.take (k + 1)).sum

theorem Covers.unique {point : ℝ} {i j : ℕ} (h : ∀ w ∈ weights, 0 ≤ w) (hi : Covers weights point i)
    (hj : Covers weights point j) : i = j := by
  rcases lt_trichotomy i j with hlt | heq | hgt
  · exact absurd ((sum_take_mono h hlt).trans hj.1) (not_le.2 hi.2)
  · exact heq
  · exact absurd ((sum_take_mono h hgt).trans hi.1) (not_le.2 hj.2)

theorem Covers.weight_pos {point : ℝ} {k : ℕ} (h : Covers weights point k) : 0 < weights.getD k 0 := by
  have hlt := h.1.trans_lt h.2
  rwa [sum_take_add_one, lt_add_iff_pos_right] at hlt

/-- What is stored of a list of weights: its sum, and the sums of its first parts but for the whole list. -/
structure Sums (choice : WeightedChoice ℝ) (weights : List ℝ) : Prop where
  nonneg : ∀ w ∈ weights, 0 ≤ w
  size_succ : choice.bounds.size + 1 = weights.length
  total_eq : choice.total = weights.sum
  bound_eq : ∀ i < choice.bounds.size, choice.bounds.getD i 0 = (weights.take (i + 1)).sum

theorem Sums.single {w : ℝ} (hw : 0 ≤ w) : Sums ⟨#[], w⟩ [w] where
  nonneg := List.forall_mem_singleton.2 hw
  size_succ := rfl
  total_eq := List.sum_singleton.symm
  bound_eq i hi := absurd hi i.not_lt_zero

theorem Sums.push {w : ℝ} (h : Sums choice weights) (hw : 0 ≤ w) :
    Sums ⟨choice.bounds.push choice.total, choice.total + w⟩ (weights ++ [w]) where
  nonneg := List.forall_mem_append.2 ⟨h.nonneg, List.forall_mem_singleton.2 hw⟩
  size_succ := by rw [Array.size_push, h.size_succ, List.length_append, List.length_singleton]
  total_eq := by rw [h.total_eq, List.sum_append, List.sum_singleton]
  bound_eq i hi := by
    rw [Array.size_push] at hi
    have hlength : i + 1 ≤ weights.length := h.size_succ ▸ hi
    rw [List.take_append_of_le_length hlength, Array.getD_eq_getD_getElem?, Array.getElem?_push]
    split
    · next hlast => rw [Option.getD_some, h.total_eq, hlast, h.size_succ, List.take_length]
    · next hother =>
      rw [← Array.getD_eq_getD_getElem?]
      exact h.bound_eq i (by omega)

theorem Sums.accumulate {more : List ℝ} (h : Sums choice weights) :
    accumulate choice more = .ok result → Sums result (weights ++ more) := by
  intro hresult
  induction more generalizing choice weights with
  | nil =>
    cases hresult
    rwa [List.append_nil]
  | cons w ws ih =>
    unfold WeightedChoice.accumulate at hresult
    split at hresult
    · next hw =>
      rw [List.append_cons]
      exact ih (h.push hw) hresult
    · cases hresult

theorem sums_ofWeights (h : ofWeights weights = .ok choice) : Sums choice weights ∧ 0 < weights.sum := by
  cases weights with
  | nil => cases h
  | cons w ws =>
    by_cases hw : (0 : ℝ) ≤ w
    · rw [ofWeights, if_pos hw] at h
      obtain ⟨result, hresult, h⟩ := bind_eq_ok_iff.1 h
      split at h
      · cases h
      · next hnonzero =>
        obtain rfl := pure_eq_ok_iff.1 h
        have hsums : Sums result (w :: ws) := (Sums.single hw).accumulate hresult
        refine ⟨hsums, lt_of_le_of_ne (List.sum_nonneg hsums.nonneg) fun hzero => hnonzero ?_⟩
        exact beq_iff_eq.2 (hsums.total_eq.trans hzero.symm)
    · rw [ofWeights, if_neg hw] at h
      cases h

theorem exists_accumulate {more : List ℝ} (h : ∀ w ∈ more, 0 ≤ w) (choice : WeightedChoice ℝ) :
    ∃ result, accumulate choice more = .ok result := by
  induction more generalizing choice with
  | nil => exact ⟨choice, rfl⟩
  | cons w ws ih =>
    obtain ⟨hw, hws⟩ := List.forall_mem_cons.1 h
    rw [accumulate, if_pos hw]
    exact ih hws _

theorem exists_ofWeights (h : ∀ w ∈ weights, 0 ≤ w) (hpos : 0 < weights.sum) :
    ∃ choice, ofWeights weights = .ok choice := by
  cases weights with
  | nil => exact absurd hpos (lt_irrefl 0)
  | cons w ws =>
    obtain ⟨hw, hws⟩ := List.forall_mem_cons.1 h
    obtain ⟨choice, hchoice⟩ := exists_accumulate hws ⟨#[], w⟩
    have hsums : Sums choice (w :: ws) := (Sums.single hw).accumulate hchoice
    have hnonzero : ¬ (choice.total == 0) = true := fun hzero =>
      hpos.ne' (hsums.total_eq.symm.trans (beq_iff_eq.1 hzero))
    refine ⟨choice, ?_⟩
    rw [ofWeights, if_pos hw, hchoice]
    exact if_neg hnonzero

theorem Sums.covers_index (h : Sums choice weights) (hpos : 0 < weights.sum) {u : ℝ} (hu : u ∈ Set.Ico 0 1) :
    Covers weights (u * weights.sum) (choice.index u) := by
  have hbound {i : ℕ} (hi : i < choice.bounds.size) :
      decide (choice.bounds.getD i 0 ≤ u * choice.total) = decide ((weights.take (i + 1)).sum ≤ u * weights.sum) := by
    rw [h.bound_eq i hi, h.total_eq]
  -- The running sums ascend, so that the test fails from some place on.
  have hinitial : ∀ i j, i ≤ j → j < choice.bounds.size → decide (choice.bounds.getD j 0 ≤ u * choice.total) = true →
      decide (choice.bounds.getD i 0 ≤ u * choice.total) = true := by
    intro i j hij hj htest
    rw [hbound hj, decide_eq_true_iff] at htest
    rw [hbound (hij.trans_lt hj), decide_eq_true_iff]
    exact (sum_take_mono h.nonneg (Nat.succ_le_succ hij)).trans htest
  obtain ⟨_, hle, hbelow, habove⟩ := firstFailure_spec hinitial (Nat.zero_le _)
  change choice.index u ≤ _ at hle
  change ∀ i, 0 ≤ i → i < choice.index u → _ at hbelow
  change ∀ i, choice.index u ≤ i → _ → _ at habove
  constructor
  · cases hindex : choice.index u with
    | zero => exact mul_nonneg hu.1 hpos.le
    | succ i =>
      have htest := hbelow i (Nat.zero_le i) (by omega)
      rwa [hbound (by omega), decide_eq_true_iff] at htest
  · rcases hle.lt_or_eq with hlt | heq
    · have htest := habove _ le_rfl hlt
      rwa [hbound hlt, decide_eq_false_iff_not, not_le] at htest
    · -- The last sum is that of all weights, which is not stored.
      rw [heq, h.size_succ, List.take_length]
      exact mul_lt_of_lt_one_left hpos hu.2

theorem Sums.index_eq_iff (h : Sums choice weights) (hpos : 0 < weights.sum) {u : ℝ} (hu : u ∈ Set.Ico 0 1) (k : ℕ) :
    choice.index u = k ↔ Covers weights (u * weights.sum) k := by
  have hcovers := h.covers_index hpos hu
  constructor
  · rintro rfl
    exact hcovers
  · exact hcovers.unique h.nonneg

theorem Sums.uniform_index (h : Sums choice weights) (hpos : 0 < weights.sum) (k : ℕ) :
    Draw.uniform.real {u : Draw | choice.index u = k} = weights.getD k 0 / weights.sum := by
  have hset : {u : Draw | choice.index u = k} =
      {u : Draw | (weights.take k).sum / weights.sum ≤ u ∧ u < (weights.take (k + 1)).sum / weights.sum} := by
    ext u
    rw [Set.mem_ofPred_eq, Set.mem_ofPred_eq, h.index_eq_iff hpos u.2, Covers, div_le_iff₀ hpos, lt_div_iff₀ hpos]
  have hnonneg : 0 ≤ (weights.take k).sum := List.sum_nonneg fun w hw => h.nonneg w (List.mem_of_mem_take hw)
  have hlow : 0 ≤ (weights.take k).sum / weights.sum := div_nonneg hnonneg hpos.le
  have hle : (weights.take k).sum / weights.sum ≤ (weights.take (k + 1)).sum / weights.sum :=
    div_le_div_of_nonneg_right (sum_take_mono h.nonneg k.le_succ) hpos.le
  have hhigh : (weights.take (k + 1)).sum / weights.sum ≤ 1 := (div_le_one hpos).2 (sum_take_le h.nonneg _)
  rw [hset, Draw.uniform_interval hlow hle hhigh, sum_take_add_one, ← sub_div, add_sub_cancel_left]

end
end QuantumCircuits.WeightedChoice
