import Mathlib
import QuantumCircuits.Proofs.Operator.Placed

/-! Diagonal maps commute with every map that leaves their wires alone, and a unitary map that commutes
with another one cancels around it. -/

noncomputable section
namespace QuantumCircuits.Operator
open Matrix QuantumCircuits.Basis

variable {n d k : ℕ} {a b : Operator n}

theorem isDiag_mul (ha : a.IsDiag) (hb : b.IsDiag) : (a * b).IsDiag := by
  rw [← ha.diagonal_diag, ← hb.diagonal_diag, diagonal_mul_diagonal]
  exact isDiag_diagonal _

theorem isDiag_pow (ha : a.IsDiag) (e : ℕ) : (a ^ e).IsDiag := by
  induction e with
  | zero => exact isDiag_one
  | succ e ih =>
    rw [pow_succ]
    exact isDiag_mul ih ha

theorem isDiag_list_prod {ms : List (Operator n)} (h : ∀ m ∈ ms, m.IsDiag) : ms.prod.IsDiag := by
  induction ms with
  | nil => exact isDiag_one
  | cons m ms ih =>
    obtain ⟨hm, hms⟩ := List.forall_mem_cons.1 h
    rw [List.prod_cons]
    exact isDiag_mul hm (ih hms)

theorem isDiag_placed {controls : List (ℕ × Bool)} {wires : List ℕ} {m : Operator d}
    (h : Selects n d wires) (hm : m.IsDiag) : (placed controls wires m : Operator n).IsDiag := by
  intro i j hne
  unfold placed
  split
  · split
    · next same =>
      refine hm fun hread => hne ?_
      have hi := h.write_read (i := i) (j := i) rfl
      rw [hread, h.write_read same] at hi
      exact hi.symm
    · rfl
  · exact Matrix.one_apply_ne hne

theorem mulVec_of_isDiag (ha : a.IsDiag) (v : Fin (2 ^ n) → ℂ) (i : Fin (2 ^ n)) :
    (a *ᵥ v) i = a i i * v i := by
  conv_lhs => rw [← ha.diagonal_diag]
  exact mulVec_diagonal _ _ _

theorem commute_of_isDiag {controls : List (ℕ × Bool)} {wires others : List ℕ} {m : Operator d}
    (h : Selects n d wires) (h' : Selects n k others) (disjoint : ∀ w ∈ wires, w ∉ others)
    (hm : m.IsDiag) (b : Operator k) :
    Commute (placed [] wires m : Operator n) (placed controls others b) := by
  have hdiag : (placed [] wires m : Operator n).IsDiag := isDiag_placed h hm
  have hentry (i : Fin (2 ^ n)) (y : Fin (2 ^ k)) :
      (placed [] wires m : Operator n) (write others i y) (write others i y) =
        (placed [] wires m : Operator n) i i := by
    simp only [placed, holds, List.all_nil, if_true, h'.read_write_of_disjoint disjoint]
  apply ext_mulVec
  intro v
  funext i
  rw [← mulVec_mulVec, ← mulVec_mulVec, mulVec_of_isDiag hdiag, placed_mulVec h', placed_mulVec h']
  split
  · rw [Finset.mul_sum]
    refine Finset.sum_congr rfl fun y _ => ?_
    rw [mulVec_of_isDiag hdiag, hentry, mul_left_comm]
  · rw [mulVec_of_isDiag hdiag]

theorem conj_of_commute {u r : Operator n} (hu : u ∈ unitaryGroup (Fin (2 ^ n)) ℂ)
    (h : Commute u r) : uᴴ * r * u = r := by
  have hone : uᴴ * u = 1 := mem_unitaryGroup_iff'.1 hu
  rw [mul_assoc, ← h.eq, ← mul_assoc, hone, one_mul]

end QuantumCircuits.Operator
end
