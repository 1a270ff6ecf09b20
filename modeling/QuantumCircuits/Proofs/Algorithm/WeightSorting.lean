import Mathlib
import QuantumCircuits.Proofs.Algorithm.Compressor
import QuantumCircuits.Proofs.Simulation.Realization

/-! The sorting matrix as a permutation. Each basis state goes to its rank, so that lower weights land on lower
indices, and as Pascal's rule counts the basis states of each weight, those below a weight fill the first places
exactly. -/

namespace QuantumCircuits

structure DenseMatrix.IsPermutation (d : ℕ) (m : DenseMatrix (Cx ℝ)) : Prop where
  shape : m.Shaped d d
  entries : ∀ i < d, ∀ j < d, m.get i j = 0 ∨ m.get i j = 1
  rows : ∀ i < d, ∃! j, j < d ∧ m.get i j = 1
  columns : ∀ j < d, ∃! i, i < d ∧ m.get i j = 1

namespace Compressor
open Matrix QuantumCircuits.Basis

variable {n d i x y : ℕ}

section Counting

theorem weight_split (hi : i < 2 ^ n) (b : Bool) : weight (n + 1) (i + 2 ^ n * b.toNat) = weight n i + b.toNat := by
  have hlow : (List.range n).countP (i + 2 ^ n * b.toNat).testBit = (List.range n).countP i.testBit :=
    List.countP_congr fun w hw => by rw [testBit_split hi, if_pos (List.mem_range.1 hw)]
  have htop : (i + 2 ^ n * b.toNat).testBit n = b := by
    rw [testBit_split hi, if_neg (lt_irrefl n), Nat.sub_self]
    cases b <;> rfl
  rw [weight, List.range_succ, List.countP_append, hlow, List.countP_singleton, htop, weight]
  cases b <;> rfl

theorem sum_weight_succ (n : ℕ) (f : ℕ → ℕ) : ∑ x ∈ Finset.range (2 ^ (n + 1)), f (weight (n + 1) x) =
    ∑ x ∈ Finset.range (2 ^ n), f (weight n x) + ∑ x ∈ Finset.range (2 ^ n), f (weight n x + 1) := by
  rw [← Fin.sum_univ_eq_sum_range (fun x => f (weight (n + 1) x)), sum_split n 1 fun x => f (weight (n + 1) x)]
  -- The highest wire reads zero, or it reads one and counts.
  refine (Fin.sum_univ_two _).trans (congrArg₂ (· + ·) ?_ ?_)
  · rw [← Fin.sum_univ_eq_sum_range (fun x => f (weight n x))]
    exact Finset.sum_congr rfl fun i _ => congrArg f (weight_split i.isLt false)
  · rw [← Fin.sum_univ_eq_sum_range (fun x => f (weight n x + 1))]
    exact Finset.sum_congr rfl fun i _ => congrArg f (weight_split i.isLt true)

theorem card_weight (n d : ℕ) : ((Finset.range (2 ^ n)).filter fun x => weight n x = d).card = n.choose d := by
  induction n generalizing d with
  | zero => cases d <;> rfl
  | succ n ih =>
    simp only [Finset.card_filter] at ih ⊢
    rw [sum_weight_succ n fun w => if w = d then 1 else 0, ih]
    cases d with
    | zero => simp
    -- Pascal's rule, by what the highest wire reads.
    | succ d =>
      simp only [Nat.add_right_cancel_iff]
      rw [ih, Nat.choose_succ_succ, add_comm]

theorem card_weight_lt (n d : ℕ) :
    ((Finset.range (2 ^ n)).filter fun x => weight n x < d).card = ∑ j ∈ Finset.range d, n.choose j := by
  rw [Finset.card_eq_sum_card_fiberwise (f := weight n) (t := Finset.range d)]
  · refine Finset.sum_congr rfl fun j hj => ?_
    rw [← card_weight, Finset.filter_filter]
    congr 1
    refine Finset.filter_congr fun x _ => and_iff_right_of_imp ?_
    rintro rfl
    exact Finset.mem_range.1 hj
  · intro x hx
    exact Finset.mem_coe.2 (Finset.mem_range.2 (Finset.mem_filter.1 hx).2)

end Counting

section Places

theorem rank_eq_card (n x : ℕ) : rank n x = ((Finset.range (2 ^ n)).filter fun y => Precedes n y x).card := by
  rw [rank, indices, List.countP_eq_length_filter]
  rfl

theorem rank_lt_sum_iff (hx : x < 2 ^ n) (d : ℕ) : rank n x < ∑ j ∈ Finset.range d, n.choose j ↔ weight n x < d := by
  rw [← card_weight_lt, rank_eq_card]
  constructor
  · intro h
    by_contra hle
    refine absurd (Finset.card_le_card fun y hy => ?_) (not_le.2 h)
    obtain ⟨hrange, hweight⟩ := Finset.mem_filter.1 hy
    exact Finset.mem_filter.2 ⟨hrange, precedes_iff.2 (.inl (hweight.trans_le (not_lt.1 hle)))⟩
  · intro hweight
    refine Finset.card_lt_card (Finset.ssubset_iff_of_subset ?_ |>.2 ⟨x, ?_, ?_⟩)
    · intro y hy
      obtain ⟨hrange, hbefore⟩ := Finset.mem_filter.1 hy
      refine Finset.mem_filter.2 ⟨hrange, lt_of_le_of_lt ?_ hweight⟩
      exact (precedes_iff.1 hbefore).elim le_of_lt fun h => h.1.le
    · exact Finset.mem_filter.2 ⟨Finset.mem_range.2 hx, hweight⟩
    · exact fun hmem => Precedes.irrefl n x (Finset.mem_filter.1 hmem).2

theorem sum_choose_le (n d : ℕ) : ∑ j ∈ Finset.range d, n.choose j ≤ 2 ^ n := by
  rw [← card_weight_lt]
  exact (Finset.card_filter_le _ _).trans_eq (Finset.card_range _)

theorem rank_lt_rank (hx : x < 2 ^ n) (h : weight n x < weight n y) : rank n x < rank n y := by
  rw [rank_eq_card n y]
  have hfirst := (rank_lt_sum_iff hx (weight n y)).2 h
  rw [← card_weight_lt] at hfirst
  refine hfirst.trans_le (Finset.card_le_card fun z hz => ?_)
  obtain ⟨hrange, hweight⟩ := Finset.mem_filter.1 hz
  exact Finset.mem_filter.2 ⟨hrange, precedes_iff.2 (.inl hweight)⟩

theorem existsUnique_rank {k : ℕ} (hk : k < 2 ^ n) : ∃! x, x < 2 ^ n ∧ rank n x = k := by
  have hlen : k < (weightOrder n).length := hk.trans_eq (length_weightOrder n).symm
  refine ⟨_, getElem?_weightOrder.1 (List.getElem?_eq_getElem hlen), fun y hy => ?_⟩
  exact Option.some.inj ((getElem?_weightOrder.2 hy).symm.trans (List.getElem?_eq_getElem hlen))

end Places

section Permutation

theorem get_weightSorting_eq_one_iff {k : ℕ} (hk : k < 2 ^ n) (hx : x < 2 ^ n) :
    (weightSorting n : DenseMatrix (Cx ℝ)).get k x = 1 ↔ rank n x = k := by
  have hne : (0 : Cx ℝ) ≠ 1 := fun h => zero_ne_one (congrArg Cx.re h)
  rw [get_weightSorting hk hx]
  split
  · next h => exact iff_of_true rfl h
  · next h => exact iff_of_false hne h

theorem isPermutation_weightSorting (n : ℕ) : (weightSorting n).IsPermutation (2 ^ n) where
  shape := shaped_weightSorting n
  entries k hk x hx := by
    rw [get_weightSorting hk hx]
    exact (ite_eq_or_eq _ _ _).symm
  rows k hk := by
    obtain ⟨x, ⟨hx, hrank⟩, hunique⟩ := existsUnique_rank hk
    refine ⟨x, ⟨hx, (get_weightSorting_eq_one_iff hk hx).2 hrank⟩, fun y ⟨hy, hone⟩ => ?_⟩
    exact hunique y ⟨hy, (get_weightSorting_eq_one_iff hk hy).1 hone⟩
  columns x hx := by
    refine ⟨rank n x, ⟨rank_lt hx, (get_weightSorting_eq_one_iff (rank_lt hx) hx).2 rfl⟩, fun k ⟨hk, hone⟩ => ?_⟩
    exact ((get_weightSorting_eq_one_iff hk hx).1 hone).symm

noncomputable def sorting (n : ℕ) : Placement ℝ := ⟨[], List.range n, weightSorting n⟩

theorem vector_sorting (s : State ℝ) (hs : s.qubits = n) :
    ((sorting n).apply s).vector n = (weightSorting n).toMatrix (2 ^ n) (2 ^ n) *ᵥ s.vector n := by
  have hplaced := Placement.vector_apply (p := sorting n) (Selects.range n) hs
  rwa [sorting, Operator.placed_range] at hplaced

theorem apply_sorting (hx : x < 2 ^ n) : (sorting n).apply (.basis n x) = .basis n (rank n x) := by
  refine State.ext_vector (n := n) rfl rfl ?_
  calc ((sorting n).apply (.basis n x)).vector n
      = (weightSorting n).toMatrix (2 ^ n) (2 ^ n) *ᵥ (State.basis n x).vector n := vector_sorting _ rfl
    _ = (weightSorting n).toMatrix (2 ^ n) (2 ^ n) *ᵥ Pi.single ⟨x, hx⟩ 1 := congrArg _ (State.vector_basis ⟨x, hx⟩)
    _ = Pi.single (ranked ⟨x, hx⟩) 1 := weightSorting_mulVec_single _
    _ = (State.basis n (rank n x)).vector n := (State.vector_basis (ranked ⟨x, hx⟩)).symm

end Permutation

/-- The sorting matrix is a permutation matrix that is accepted as a gate and moves each basis state to the place
that is the number of basis states before it, by weight and then by index. So lower weights land on lower indices,
and the basis states below a weight land exactly on the first indices, as many as there are of them. -/
theorem weightSorting_sorts (hn : 0 < n) (label : String) :
    (weightSorting n : DenseMatrix (Cx ℝ)).IsPermutation (2 ^ n) ∧
    Gate.ofUnitary label (weightSorting n : DenseMatrix (Cx ℝ)) = .ok (.dense label (weightSorting n)) ∧
    (∀ x < 2 ^ n, (sorting n).apply (.basis n x) = .basis n (rank n x) ∧ rank n x =
      ((Finset.range (2 ^ n)).filter fun y => toLex (weight n y, y) < toLex (weight n x, x)).card) ∧
    (∀ x < 2 ^ n, ∀ y < 2 ^ n, weight n x < weight n y → rank n x < rank n y) ∧
    ∀ d k, k < ∑ j ∈ Finset.range d, n.choose j ↔ ∃ x < 2 ^ n, weight n x < d ∧ rank n x = k := by
  refine ⟨isPermutation_weightSorting n, ?_, fun x hx => ⟨apply_sorting hx, rank_eq_card n x⟩,
    fun x hx y _ => rank_lt_rank hx, fun d k => ⟨fun hk => ?_, ?_⟩⟩
  · exact Gate.ofUnitary_of_mem_unitary hn (shaped_weightSorting n) (weightSorting_mem_unitary n)
  · obtain ⟨x, ⟨hx, rfl⟩, _⟩ := existsUnique_rank (hk.trans_le (sum_choose_le n d))
    exact ⟨x, hx, (rank_lt_sum_iff hx d).1 hk, rfl⟩
  · rintro ⟨x, hx, hweight, rfl⟩
    exact (rank_lt_sum_iff hx d).2 hweight

theorem weightSorting_sorts_three : 0 < 3 ∧
    Gate.ofUnitary "perm" (weightSorting 3 : DenseMatrix (Cx ℝ)) = .ok (.dense "perm" (weightSorting 3)) ∧
    (sorting 3).apply (.basis 3 3) = .basis 3 4 ∧ (sorting 3).apply (.basis 3 4) = .basis 3 3 := by
  obtain ⟨_, haccepted, hmoves, _⟩ := weightSorting_sorts (n := 3) (by decide) "perm"
  exact ⟨by decide, haccepted, (hmoves 3 (by decide)).1, (hmoves 4 (by decide)).1⟩

end Compressor
end QuantumCircuits
