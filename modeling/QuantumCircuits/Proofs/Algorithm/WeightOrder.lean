import Mathlib
import QuantumCircuits.Algorithm.Compression
import QuantumCircuits.Proofs.Matrix.Dense
import QuantumCircuits.Proofs.Operator.Placed

/-! Basis states in the order of their weight. The stable sort puts each basis state at the place that is the
number of basis states before it, and the sorting matrix is the permutation that moves it there. -/

namespace QuantumCircuits.Compressor

/-- A basis state of less weight comes first, and of two with the same weight the one with the lower index. -/
def Precedes (n x y : ℕ) : Prop := toLex (weight n x, x) < toLex (weight n y, y)

instance (n x y : ℕ) : Decidable (Precedes n x y) :=
  inferInstanceAs (Decidable (toLex (weight n x, x) < toLex (weight n y, y)))

def rank (n x : ℕ) : ℕ := (Basis.indices n).countP fun y => decide (Precedes n y x)

variable {n k x y : ℕ}

theorem precedes_iff : Precedes n x y ↔ weight n x < weight n y ∨ weight n x = weight n y ∧ x < y :=
  Prod.Lex.toLex_lt_toLex

theorem weightOrder_perm (n : ℕ) : (weightOrder n).Perm (Basis.indices n) := List.mergeSort_perm _ _

theorem nodup_weightOrder (n : ℕ) : (weightOrder n).Nodup := (weightOrder_perm n).nodup_iff.2 List.nodup_range

theorem length_weightOrder (n : ℕ) : (weightOrder n).length = 2 ^ n :=
  (weightOrder_perm n).length_eq.trans List.length_range

theorem mem_weightOrder : x ∈ weightOrder n ↔ x < 2 ^ n := (weightOrder_perm n).mem_iff.trans List.mem_range

theorem pairwise_weightOrder (n : ℕ) : (weightOrder n).Pairwise (Precedes n) := by
  let le (x y : ℕ) : Bool := decide (weight n x ≤ weight n y)
  have htrans : ∀ x y z, le x y = true → le y z = true → le x z = true := fun x y z hxy hyz =>
    decide_eq_true ((of_decide_eq_true hxy).trans (of_decide_eq_true hyz))
  have htotal : ∀ x y, (le x y || le y x) = true := fun x y => by
    rw [Bool.or_eq_true, decide_eq_true_iff, decide_eq_true_iff]
    exact Nat.le_total _ _
  -- The sort is stable: basis states of one weight keep the order of their indices.
  have hplace : ∀ p ∈ (Basis.indices n).zipIdx.mergeSort (List.zipIdxLE le), p.2 = p.1 := fun p hp => by
    have hget : (List.range (2 ^ n))[p.2]? = some p.1 := List.mem_zipIdx_iff_getElem?.1 (List.mem_mergeSort.1 hp)
    obtain ⟨hlt, hval⟩ := List.getElem?_eq_some_iff.1 hget
    rwa [List.getElem_range] at hval
  have hsorted := List.pairwise_mergeSort (List.zipIdxLE_trans htrans) (List.zipIdxLE_total htotal) (Basis.indices n).zipIdx
  have hfirst : ((Basis.indices n).zipIdx.mergeSort (List.zipIdxLE le)).map (·.1) = (Basis.indices n).mergeSort le :=
    List.mergeSort_zipIdx
  have hascending : (weightOrder n).Pairwise fun x y => weight n x < weight n y ∨ weight n x = weight n y ∧ x ≤ y := by
    rw [weightOrder, ← hfirst, List.pairwise_map]
    refine hsorted.imp_of_mem fun {p q} hp hq hpq => ?_
    simp only [List.zipIdxLE, hplace p hp, hplace q hq, le, decide_eq_true_iff] at hpq
    split_ifs at hpq with hle hge
    · exact .inr ⟨hle.antisymm hge, of_decide_eq_true hpq⟩
    · exact .inl (not_le.1 hge)
  refine (hascending.and (nodup_weightOrder n)).imp fun ⟨hle, hne⟩ => precedes_iff.2 ?_
  exact hle.imp_right fun ⟨hweight, hxy⟩ => ⟨hweight, lt_of_le_of_ne hxy hne⟩

theorem Precedes.irrefl (n x : ℕ) : ¬ Precedes n x x := lt_irrefl _

theorem Precedes.asymm (h : Precedes n x y) : ¬ Precedes n y x := lt_asymm h

theorem getElem?_weightOrder : (weightOrder n)[k]? = some x ↔ x < 2 ^ n ∧ rank n x = k := by
  have hrank {j : ℕ} (h : (weightOrder n)[j]? = some x) : rank n x = j := by
    obtain ⟨hlt, hget⟩ := List.getElem?_eq_some_iff.1 h
    have hsplit : weightOrder n = (weightOrder n).take j ++ x :: (weightOrder n).drop (j + 1) := by
      rw [← hget, List.getElem_cons_drop, List.take_append_drop]
    have hsorted := pairwise_weightOrder n
    rw [hsplit, List.pairwise_append, List.pairwise_cons] at hsorted
    obtain ⟨_, ⟨hafter, _⟩, hbefore⟩ := hsorted
    have hfront : ((weightOrder n).take j).countP (fun y => decide (Precedes n y x)) = j := by
      rw [List.countP_eq_length.2 fun y hy => decide_eq_true (hbefore y hy x List.mem_cons_self), List.length_take]
      omega
    have hback : ((weightOrder n).drop (j + 1)).countP (fun y => decide (Precedes n y x)) = 0 :=
      List.countP_eq_zero.2 fun y hy => by simpa using (hafter y hy).asymm
    rw [rank, ← (weightOrder_perm n).countP_eq, hsplit, List.countP_append, List.countP_cons, hfront, hback]
    simp [Precedes.irrefl]
  constructor
  · intro h
    exact ⟨mem_weightOrder.1 (List.mem_of_getElem? h), hrank h⟩
  · rintro ⟨hx, rfl⟩
    obtain ⟨j, hj⟩ := List.getElem?_of_mem (mem_weightOrder.2 hx)
    rwa [hrank hj]

theorem rank_lt (h : x < 2 ^ n) : rank n x < 2 ^ n := by
  have hget : (weightOrder n)[rank n x]? = some x := getElem?_weightOrder.2 ⟨h, rfl⟩
  obtain ⟨hlt, _⟩ := List.getElem?_eq_some_iff.1 hget
  rwa [length_weightOrder] at hlt

theorem rank_inj (hx : x < 2 ^ n) (hy : y < 2 ^ n) (h : rank n x = rank n y) : x = y := by
  have hget : (weightOrder n)[rank n x]? = some x := getElem?_weightOrder.2 ⟨hx, rfl⟩
  rw [h, getElem?_weightOrder.2 ⟨hy, rfl⟩] at hget
  exact (Option.some.inj hget).symm

noncomputable section
open Matrix

def ranked (i : Fin (2 ^ n)) : Fin (2 ^ n) := ⟨rank n i, rank_lt i.isLt⟩

theorem ranked_injective : Function.Injective (ranked : Fin (2 ^ n) → Fin (2 ^ n)) := fun i j h =>
  Fin.ext (rank_inj i.isLt j.isLt (Fin.ext_iff.1 h))

theorem shaped_weightSorting (n : ℕ) : (weightSorting n : DenseMatrix (Cx ℝ)).Shaped (2 ^ n) (2 ^ n) :=
  ⟨length_weightOrder n, length_weightOrder n⟩

theorem get_weightSorting (hk : k < 2 ^ n) (hx : x < 2 ^ n) :
    (weightSorting n : DenseMatrix (Cx ℝ)).get k x = if rank n x = k then 1 else 0 := by
  have hbelow {i : ℕ} (hi : i < 2 ^ n) : i < (weightOrder n).toArray.size := hi.trans_eq (length_weightOrder n).symm
  rw [weightSorting, DenseMatrix.get_ofFn _ (hbelow hk) (hbelow hx), List.getElem?_toArray]
  exact if_congr (getElem?_weightOrder.trans (and_iff_right hx)) rfl rfl

theorem toMatrix_weightSorting (n : ℕ) :
    (weightSorting n).toMatrix (2 ^ n) (2 ^ n) = (1 : Matrix (Fin (2 ^ n)) (Fin (2 ^ n)) ℂ).submatrix id ranked := by
  ext k j
  rw [DenseMatrix.toMatrix, get_weightSorting k.isLt j.isLt, submatrix_apply, one_apply, apply_ite Cx.toComplex,
    Cx.toComplex_one, Cx.toComplex_zero]
  exact if_congr (eq_comm.trans (Fin.ext_iff (b := ranked j)).symm) rfl rfl

theorem weightSorting_mem_unitary (n : ℕ) :
    (weightSorting n).toMatrix (2 ^ n) (2 ^ n) ∈ unitaryGroup (Fin (2 ^ n)) ℂ := by
  rw [mem_unitaryGroup_iff', star_eq_conjTranspose, toMatrix_weightSorting, conjTranspose_submatrix, conjTranspose_one,
    ← submatrix_mul _ _ _ _ _ Function.bijective_id, one_mul, submatrix_one _ ranked_injective]

theorem weightSorting_mulVec_single (i : Fin (2 ^ n)) :
    (weightSorting n).toMatrix (2 ^ n) (2 ^ n) *ᵥ Pi.single i 1 = Pi.single (ranked i) 1 := by
  rw [mulVec_single_one, toMatrix_weightSorting]
  ext k
  simp [Pi.single_apply, one_apply]

end
end QuantumCircuits.Compressor
