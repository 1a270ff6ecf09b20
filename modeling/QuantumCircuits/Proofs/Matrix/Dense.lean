import Mathlib
import QuantumCircuits.Matrix.Dense
import QuantumCircuits.Proofs.Number.Exact

/-! Dense matrices over exact complex numbers as matrices over the complex field. -/

namespace QuantumCircuits.DenseMatrix

structure Shaped {α : Type} (m : DenseMatrix α) (rows columns : ℕ) : Prop where
  rows : m.rows = rows
  columns : m.columns = columns

theorem get_map {α β : Type} [Zero α] [Zero β] {f : α → β} (hf : f 0 = 0) (m : DenseMatrix α)
    (i j : ℕ) : (m.map f).get i j = f (m.get i j) := by
  unfold DenseMatrix.get DenseMatrix.map
  split
  · rw [Vector.getElem?_map]
    cases m.entries[i * m.columns + j]? with
    | none => exact hf.symm
    | some x => rfl
  · exact hf.symm

theorem ext_get {α : Type} [Zero α] {m n : DenseMatrix α} {r c : ℕ} (hm : m.Shaped r c)
    (hn : n.Shaped r c) (h : ∀ i < r, ∀ j < c, m.get i j = n.get i j) : m = n := by
  obtain ⟨p, q, xs⟩ := m
  obtain ⟨p', q', ys⟩ := n
  obtain ⟨rfl, rfl⟩ : r = p ∧ c = q := ⟨hm.rows.symm, hm.columns.symm⟩
  obtain ⟨rfl, rfl⟩ : r = p' ∧ c = q' := ⟨hn.rows.symm, hn.columns.symm⟩
  congr 1
  ext k hk
  have hcolumn : 0 < c := Nat.pos_of_ne_zero (by rintro rfl; simp at hk)
  have hentry := h (k / c) (Nat.div_lt_of_lt_mul (Nat.mul_comm r c ▸ hk)) (k % c) (Nat.mod_lt k hcolumn)
  have hplace : k / c * c + k % c = k := by rw [Nat.mul_comm, Nat.div_add_mod]
  simpa only [DenseMatrix.get, Nat.mod_lt k hcolumn, if_true, hplace, Vector.getElem?_eq_getElem hk,
    Option.getD_some] using hentry

section Shapes

variable {R : Type} [Scalar R] {r c k d : ℕ} {m n : DenseMatrix (Cx R)}

theorem Shaped.mul (hm : m.Shaped r k) (hn : n.Shaped k c) : (m * n).Shaped r c :=
  ⟨hm.rows, hn.columns⟩

theorem Shaped.adjoint (hm : m.Shaped r c) : m.adjoint.Shaped c r := ⟨hm.columns, hm.rows⟩

theorem shaped_identity (d : ℕ) : (identity d : DenseMatrix (Cx R)).Shaped d d := ⟨rfl, rfl⟩

theorem shaped_diagonal {entries : List (Cx R)} (h : entries.length = d) :
    (diagonal entries).Shaped d d := ⟨h, h⟩

theorem Shaped.unit (hm : m.Shaped d d) :
    unit m.rows m.columns = (identity d : DenseMatrix (Cx R)) := by
  rw [hm.rows, hm.columns, identity]

theorem Shaped.pow (hm : m.Shaped d d) (e : ℕ) : (m.pow e).Shaped d d := by
  rw [DenseMatrix.pow, hm.unit]
  exact repeatedSquares_closed (fun a : DenseMatrix (Cx R) => a.Shaped d d) DenseMatrix.mul
    (fun a b ha hb => Shaped.mul ha hb) _ _ e (shaped_identity d) hm

end Shapes

section Tests

variable {R : Type} [Scalar R] {m n : DenseMatrix (Cx R)}

theorem allPlaces_eq_true_iff {α : Type} {m : DenseMatrix α} {test : ℕ → ℕ → Bool} :
    m.allPlaces test = true ↔ ∀ i < m.rows, ∀ j < m.columns, test i j = true := by
  simp only [allPlaces, List.all_eq_true, List.mem_range]

theorem isNear_eq_true_iff : m.isNear n = true ↔
    ∀ i < m.rows, ∀ j < m.columns, ¬ Scalar.tolerance < (m.get i j - n.get i j).modulus := by
  simp only [isNear, allPlaces_eq_true_iff, Bool.not_eq_true', decide_eq_false_iff_not]

theorem isDiagonal_eq_true_iff : m.isDiagonal = true ↔
    ∀ i < m.rows, ∀ j < m.columns, i ≠ j → (m.get i j).modulus < Scalar.tolerance := by
  simp only [isDiagonal, allPlaces_eq_true_iff, Bool.or_eq_true, beq_iff_eq, decide_eq_true_iff, or_iff_not_imp_left]

end Tests

noncomputable section
open Matrix

def toMatrix (rows columns : ℕ) (m : DenseMatrix (Cx ℝ)) : Matrix (Fin rows) (Fin columns) ℂ :=
  fun i j => (m.get i j).toComplex

variable {r c k : ℕ} {m n : DenseMatrix (Cx ℝ)}

theorem toMatrix_ofFn (entry : ℕ → ℕ → Cx ℝ) :
    (ofFn r c entry).toMatrix r c = fun i j : Fin _ => (entry i j).toComplex := by
  funext i j
  rw [toMatrix, get_ofFn entry i.isLt j.isLt]

def ofMatrix (a : Matrix (Fin r) (Fin c) ℂ) : DenseMatrix (Cx ℝ) :=
  ofFn r c fun i j => if inside : i < r ∧ j < c then .ofComplex (a ⟨i, inside.1⟩ ⟨j, inside.2⟩) else 0

theorem toMatrix_ofMatrix (a : Matrix (Fin r) (Fin c) ℂ) : (ofMatrix a).toMatrix r c = a := by
  rw [ofMatrix, toMatrix_ofFn]
  funext i j
  rw [dif_pos ⟨i.isLt, j.isLt⟩, Cx.toComplex_ofComplex]

theorem toComplex_accumulate (y : Cx ℝ) (as xs : List (Cx ℝ)) :
    (accumulate y as xs).toComplex =
      y.toComplex + (List.zipWith (fun a x => a.toComplex * x.toComplex) as xs).sum := by
  induction as generalizing xs y with
  | nil => simp [accumulate]
  | cons a as ih =>
    cases xs with
    | nil => simp [accumulate]
    | cons x xs =>
      rw [accumulate, ih]
      simp only [Cx.update, Cx.toComplex_add, Cx.toComplex_mul, Cx.toComplex_one,
        List.zipWith_cons_cons, List.sum_cons]
      ring

theorem toComplex_inner (as xs : List (Cx ℝ)) :
    (inner as xs).toComplex =
      (List.zipWith (fun a x => a.toComplex * x.toComplex) as xs).sum := by
  cases as with
  | nil => simp [inner]
  | cons a as =>
    cases xs with
    | nil => simp [inner]
    | cons x xs =>
      rw [inner, toComplex_accumulate]
      simp only [Cx.toComplex_mul, Cx.toComplex_one, List.zipWith_cons_cons, List.sum_cons]
      ring

theorem sum_map_range (f : ℕ → ℂ) (n : ℕ) : ((List.range n).map f).sum = ∑ i : Fin n, f i := by
  rw [Fin.sum_univ_eq_sum_range f n]
  rfl

theorem toMatrix_mul (hm : m.Shaped r k) (hn : n.Shaped k c) :
    (m * n).toMatrix r c = m.toMatrix r k * n.toMatrix k c := by
  ext i j
  have hi : i.val < m.rows := hm.rows ▸ i.isLt
  have hj : j.val < n.columns := hn.columns ▸ j.isLt
  change ((mul m n).get i j).toComplex = _
  rw [get_mul m n hi hj, toComplex_inner, row, column, hm.columns, hn.rows, List.zipWith_map,
    List.zipWith_self, sum_map_range (fun l => (m.get i l).toComplex * (n.get l j).toComplex),
    Matrix.mul_apply]
  rfl

theorem toMatrix_adjoint (hm : m.Shaped r c) : m.adjoint.toMatrix c r = (m.toMatrix r c)ᴴ := by
  ext i j
  have hi : i.val < m.columns := hm.columns ▸ i.isLt
  have hj : j.val < m.rows := hm.rows ▸ j.isLt
  rw [toMatrix, adjoint, get_ofFn _ hi hj]
  rfl

theorem toMatrix_identity (d : ℕ) : (identity d).toMatrix d d = 1 := by
  rw [identity, unit, toMatrix_ofFn]
  ext i j
  simp only [Matrix.one_apply, Fin.ext_iff, apply_ite Cx.toComplex, Cx.toComplex_one,
    Cx.toComplex_zero]

theorem toMatrix_diagonal {entries : List (Cx ℝ)} {d : ℕ} (h : entries.length = d) :
    (diagonal entries).toMatrix d d =
      Matrix.diagonal fun i : Fin d => (entries.getD i 0).toComplex := by
  subst h
  rw [diagonal, toMatrix_ofFn]
  ext i j
  simp only [Matrix.diagonal_apply, Fin.ext_iff, apply_ite Cx.toComplex, Cx.toComplex_zero]

theorem toMatrix_pow {d : ℕ} (hm : m.Shaped d d) (e : ℕ) :
    (m.pow e).toMatrix d d = m.toMatrix d d ^ e := by
  have hsquares := repeatedSquares_eq (fun a => a.toMatrix d d) (fun a => a.Shaped d d)
    DenseMatrix.mul (fun a b ha hb => Shaped.mul ha hb) (fun a b ha hb => toMatrix_mul ha hb)
    (identity d) m e (shaped_identity d) hm
  rw [toMatrix_identity, one_mul] at hsquares
  rw [DenseMatrix.pow, hm.unit, hsquares]

theorem ext_toMatrix (hm : m.Shaped r c) (hn : n.Shaped r c) (h : m.toMatrix r c = n.toMatrix r c) :
    m = n :=
  ext_get hm hn fun i hi j hj => Cx.toComplex_injective (congrFun (congrFun h ⟨i, hi⟩) ⟨j, hj⟩)

theorem Shaped.pow_zero_eq {d : ℕ} (hm : m.Shaped d d) : m.pow 0 = identity d := by
  refine ext_toMatrix (hm.pow 0) (shaped_identity d) ?_
  rw [toMatrix_pow hm, pow_zero, toMatrix_identity]

theorem Shaped.pow_succ_eq {d : ℕ} (hm : m.Shaped d d) (e : ℕ) : m.pow (e + 1) = m.pow e * m := by
  refine ext_toMatrix (hm.pow (e + 1)) ((hm.pow e).mul hm) ?_
  rw [toMatrix_mul (hm.pow e) hm, toMatrix_pow hm, toMatrix_pow hm, pow_succ]

theorem Shaped.pow_eq_self {d : ℕ} (hm : m.Shaped d d) : m.pow 1 = m := by
  refine ext_toMatrix (hm.pow 1) hm ?_
  rw [toMatrix_pow hm, pow_one]

theorem Shaped.pow_pow {d : ℕ} (hm : m.Shaped d d) (a b : ℕ) : (m.pow a).pow b = m.pow (a * b) := by
  refine ext_toMatrix ((hm.pow a).pow b) (hm.pow (a * b)) ?_
  rw [toMatrix_pow (hm.pow a), toMatrix_pow hm, toMatrix_pow hm, pow_mul]

theorem modulus_zero_lt_tolerance : (0 : Cx ℝ).modulus < Scalar.tolerance := by
  rw [Cx.modulus_eq_norm, Cx.toComplex_zero, norm_zero, Scalar.tolerance]
  positivity

theorem isNear_self (m : DenseMatrix (Cx ℝ)) : m.isNear m = true := by
  refine isNear_eq_true_iff.2 fun i _ j _ => ?_
  have hsub : m.get i j - m.get i j = 0 := Cx.ext (sub_self _) (sub_self _)
  rw [hsub]
  exact modulus_zero_lt_tolerance.not_gt

theorem isNear_adjoint (square : m.rows = m.columns)
    (hermitian : ∀ i < m.rows, ∀ j < m.rows, m.get i j = (m.get j i).conj) :
    m.isNear m.adjoint = true := by
  have hadjoint : m.adjoint = m := by
    refine ext_get (r := m.rows) (c := m.rows) ⟨square.symm, rfl⟩ ⟨rfl, square.symm⟩ fun i hi j hj => ?_
    rw [hermitian i hi j hj, adjoint, get_ofFn _ (square ▸ hi) hj]
  rw [hadjoint, isNear_self]

theorem isDiagonal_of_get (h : ∀ i < m.rows, ∀ j < m.columns, i ≠ j → m.get i j = 0) : m.isDiagonal = true := by
  refine isDiagonal_eq_true_iff.2 fun i hi j hj hij => ?_
  rw [h i hi j hj hij]
  exact modulus_zero_lt_tolerance

theorem isDiagonal_diagonal (entries : List (Cx ℝ)) : (diagonal entries).isDiagonal = true :=
  isDiagonal_of_get fun _ hi _ hj hij => (get_ofFn _ hi hj).trans (if_neg hij)

end
end QuantumCircuits.DenseMatrix
