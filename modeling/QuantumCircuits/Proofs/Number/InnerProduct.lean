import Mathlib
import QuantumCircuits.Number.InnerProduct
import QuantumCircuits.Proofs.Number.Exact

/-! Inner products of exact numbers. Summed from the left or in lanes, they are the sum of their terms. -/

noncomputable section
namespace QuantumCircuits.Cx

theorem toComplex_conj_mul_self (a : Cx ℝ) : (a.conj * a).toComplex = (a.normSq : ℂ) := by
  rw [← normSq_toComplex, Complex.normSq_eq_conj_mul_self, toComplex_mul]
  rfl

theorem toComplex_innerProduct (m : ℕ) (f g : ℕ → Cx ℝ) :
    (innerProduct ((List.range m).map f) ((List.range m).map g)).toComplex =
      ∑ i : Fin m, star (f i).toComplex * (g i).toComplex := by
  rw [innerProduct, innerTerms, List.zipWith_map, List.zipWith_self, toComplex_sum, List.map_map,
    Fin.sum_univ_eq_sum_range fun i => star (f i).toComplex * (g i).toComplex]
  rfl

theorem sum_zipWith_add {xs ys : List (Cx ℝ)} (h : xs.length = ys.length) :
    ((List.zipWith (· + ·) xs ys).map toComplex).sum = (xs.map toComplex).sum + (ys.map toComplex).sum := by
  induction xs generalizing ys with
  | nil =>
    obtain rfl := List.eq_nil_of_length_eq_zero h.symm
    exact (zero_add 0).symm
  | cons x xs ih =>
    cases ys with
    | nil => cases h
    | cons y ys =>
      rw [List.zipWith_cons_cons, List.map_cons, List.sum_cons, ih (Nat.succ.inj h), toComplex_add, List.map_cons,
        List.sum_cons, List.map_cons, List.sum_cons]
      ring

theorem fillLanes_spec {totals : List (Cx ℝ)} (hlanes : totals.length = 8) (terms : List (Cx ℝ)) :
    (fillLanes totals terms).1.length = 8 ∧
      ((fillLanes totals terms).1.map toComplex).sum + ((fillLanes totals terms).2.map toComplex).sum =
        (totals.map toComplex).sum + (terms.map toComplex).sum := by
  fun_induction fillLanes totals terms with
  | case1 totals a b c d e f g h rest ih =>
    have hrow : totals.length = [a, b, c, d, e, f, g, h].length := hlanes
    obtain ⟨hlength, hsum⟩ := ih (by rw [List.length_zipWith, ← hrow, min_self, hlanes])
    refine ⟨hlength, hsum.trans ?_⟩
    rw [sum_zipWith_add hrow]
    simp only [List.map_cons, List.sum_cons, List.map_nil, List.sum_nil]
    ring
  | case2 totals rest => exact ⟨hlanes, rfl⟩

theorem toComplex_laneSum (terms : List (Cx ℝ)) : (laneSum terms).toComplex = (terms.map toComplex).sum := by
  have hspec := fillLanes_spec (List.length_replicate : (List.replicate 8 (0 : Cx ℝ)).length = 8) terms
  unfold laneSum
  generalize fillLanes (List.replicate 8 0) terms = filled at hspec ⊢
  obtain ⟨totals, rest⟩ := filled
  obtain ⟨hlength, hsum⟩ := hspec
  dsimp only at hlength hsum ⊢
  have hhalves : (totals.take 4).length = (totals.drop 4).length := by
    rw [List.length_take, List.length_drop, hlength]
    rfl
  rw [toComplex_sum, List.map_append, List.sum_append, sum_zipWith_add hhalves, ← List.sum_append, ← List.map_append,
    List.take_append_drop, hsum, List.map_replicate, List.sum_replicate, toComplex_zero, smul_zero, zero_add]

theorem toComplex_laneProduct (m : ℕ) (f g : ℕ → Cx ℝ) :
    (laneProduct ((List.range m).map f) ((List.range m).map g)).toComplex =
      ∑ i : Fin m, star (f i).toComplex * (g i).toComplex := by
  have hterms : (innerTerms ((List.range m).map f) ((List.range m).map g)).map toComplex =
      (List.range m).map fun i => star (f i).toComplex * (g i).toComplex := by
    rw [innerTerms, List.zipWith_map, List.zipWith_self, List.map_map]
    rfl
  rw [laneProduct, toComplex_laneSum, hterms]
  exact (Fin.sum_univ_eq_sum_range (fun i => star (f i).toComplex * (g i).toComplex) m).symm

theorem lengthSq_eq (xs : List (Cx ℝ)) : lengthSq xs = (xs.map normSq).sum := by
  have hterms : (innerTerms xs xs).map toComplex = (xs.map normSq).map Complex.ofReal := by
    rw [innerTerms, List.zipWith_self, List.map_map, List.map_map]
    exact List.map_congr_left fun a _ => toComplex_conj_mul_self a
  have hproduct : (laneProduct xs xs).toComplex = ((xs.map normSq).sum : ℝ) := by
    rw [laneProduct, toComplex_laneSum, hterms]
    exact (map_list_sum Complex.ofRealHom _).symm
  exact congrArg Complex.re hproduct

theorem length_eq (xs : List (Cx ℝ)) : length xs = √(xs.map normSq).sum := congrArg Real.sqrt (lengthSq_eq xs)

theorem length_sq (xs : List (Cx ℝ)) : length xs ^ 2 = (xs.map normSq).sum := by
  rw [length_eq, Real.sq_sqrt]
  refine List.sum_nonneg fun x hx => ?_
  obtain ⟨a, _, rfl⟩ := List.mem_map.1 hx
  rw [← normSq_toComplex]
  exact Complex.normSq_nonneg _

theorem length_map_range (m : ℕ) (f : ℕ → Cx ℝ) :
    length ((List.range m).map f) = √(∑ i : Fin m, Complex.normSq (f i).toComplex) := by
  rw [length_eq, List.map_map, Fin.sum_univ_eq_sum_range fun i => Complex.normSq (f i).toComplex]
  simp only [normSq_toComplex]
  rfl

end QuantumCircuits.Cx
end
