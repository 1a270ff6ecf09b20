import Mathlib
import QuantumCircuits.Proofs.Operator.Registers

/-! Products of one vector for each wire of a register, on which a map on one wire acts on the factor of that wire,
and products of one matrix for each wire. -/

noncomputable section
namespace QuantumCircuits
open Matrix QuantumCircuits.Basis
open scoped Kronecker

namespace Basis

def bit (i w : ℕ) : Fin 2 := finTwoEquiv.symm (i.testBit w)

theorem bit_inj {i j w : ℕ} : bit i w = bit j w ↔ i.testBit w = j.testBit w := finTwoEquiv.symm.injective.eq_iff

theorem read_bit (w i : ℕ) : read 1 [w] i = bit i w := by
  rw [Operator.read_singleton, bit]
  cases i.testBit w <;> rfl

theorem bit_write {n v w : ℕ} (hw : w < n) (i : Fin (2 ^ n)) (b : Fin (2 ^ 1)) :
    bit (write [w] i b).val v = if v = w then b else bit i v := by
  have hsel : Selects n 1 [w] := Operator.selects_singleton hw
  split
  · next same =>
    subst same
    have hread := hsel.read_write i b
    rwa [read_bit] at hread
  · next hne => exact bit_inj.2 (hsel.testBit_write_of_not_mem i b fun h => hne (List.mem_singleton.1 h))

end Basis

namespace Operator

def product (n : ℕ) (u : ℕ → Fin 2 → ℂ) : Fin (2 ^ n) → ℂ := fun i => ∏ w ∈ Finset.range n, u w (bit i w)

variable {n : ℕ} {u v : ℕ → Fin 2 → ℂ}

theorem product_congr (h : ∀ w < n, u w = v w) : product n u = product n v := by
  funext i
  exact Finset.prod_congr rfl fun w hw => by rw [h w (Finset.mem_range.1 hw)]

theorem product_single (i : Fin (2 ^ n)) : product n (fun w => Pi.single (bit i w) 1) = Pi.single i 1 := by
  funext j
  simp only [product, Pi.single_apply, bit_inj, Finset.prod_boole, Finset.mem_range]
  refine if_congr ⟨fun h => ext_testBit h, ?_⟩ rfl rfl
  rintro rfl _ _
  rfl

theorem placed_wire_mulVec_product {w : ℕ} (hw : w < n) (m : Matrix (Fin 2) (Fin 2) ℂ) (u : ℕ → Fin 2 → ℂ) :
    placed (d := 1) [] [w] m *ᵥ product n u = product n (Function.update u w (m *ᵥ u w)) := by
  funext i
  have hmem : w ∈ Finset.range n := Finset.mem_range.2 hw
  have hothers : ∏ v ∈ (Finset.range n).erase w, Function.update u w (m *ᵥ u w) v (bit i v) =
      ∏ v ∈ (Finset.range n).erase w, u v (bit i v) :=
    Finset.prod_congr rfl fun v hv => by rw [Function.update_of_ne (Finset.ne_of_mem_erase hv)]
  have hwrite (b : Fin (2 ^ 1)) : product n u (write [w] i b) = u w b * ∏ v ∈ (Finset.range n).erase w, u v (bit i v) := by
    rw [product, ← Finset.mul_prod_erase _ _ hmem, bit_write hw, if_pos rfl]
    congr 1
    refine Finset.prod_congr rfl fun v hv => ?_
    rw [bit_write hw, if_neg (Finset.ne_of_mem_erase hv)]
  rw [placed_nil_mulVec (selects_singleton hw), read_bit, product, ← Finset.mul_prod_erase _ _ hmem, hothers,
    Function.update_self, mulVec, dotProduct, Finset.sum_mul]
  refine Finset.sum_congr rfl fun b _ => ?_
  rw [hwrite, mul_assoc]

theorem placed_wires_mem_unitary {wires : List ℕ} (below : ∀ w ∈ wires, w < n) {m : ℕ → Matrix (Fin 2) (Fin 2) ℂ}
    (h : ∀ w, m w ∈ unitaryGroup (Fin 2) ℂ) :
    (wires.map fun w => (placed (d := 1) [] [w] (m w) : Operator n)).reverse.prod ∈ unitaryGroup (Fin (2 ^ n)) ℂ := by
  refine list_prod_mem fun a ha => ?_
  obtain ⟨w, hw, rfl⟩ := List.mem_map.1 (List.mem_reverse.1 ha)
  exact placed_mem_unitary (selects_singleton (below w hw)) (List.forall_mem_nil _) (h w)

theorem placed_wires_mulVec_product {wires : List ℕ} (nodup : wires.Nodup) (below : ∀ w ∈ wires, w < n)
    (m : ℕ → Matrix (Fin 2) (Fin 2) ℂ) (u : ℕ → Fin 2 → ℂ) :
    (wires.map fun w => (placed (d := 1) [] [w] (m w) : Operator n)).reverse.prod *ᵥ product n u =
      product n fun w => if w ∈ wires then m w *ᵥ u w else u w := by
  induction wires generalizing u with
  | nil => simp
  | cons w ws ih =>
    obtain ⟨hw, hws⟩ := List.forall_mem_cons.1 below
    obtain ⟨fresh, nodup⟩ := List.nodup_cons.1 nodup
    rw [List.map_cons, List.reverse_cons, List.prod_append, List.prod_singleton, ← mulVec_mulVec,
      placed_wire_mulVec_product hw, ih nodup hws]
    refine product_congr fun v _ => ?_
    by_cases hv : v = w
    · subst hv
      rw [if_neg fresh, if_pos List.mem_cons_self, Function.update_self]
    · simp only [List.mem_cons, hv, false_or, Function.update_of_ne hv]

def kroneckerPower (m : Matrix (Fin 2) (Fin 2) ℂ) : (n : ℕ) → Operator n
  | 0 => 1
  | n + 1 => (kroneckerPower m n ⊗ₖ m).submatrix finProdFinEquiv.symm finProdFinEquiv.symm

theorem kroneckerPower_apply (m : Matrix (Fin 2) (Fin 2) ℂ) (n : ℕ) (i j : Fin (2 ^ n)) :
    kroneckerPower m n i j = ∏ w ∈ Finset.range n, m (bit i w) (bit j w) := by
  induction n with
  | zero =>
    rw [kroneckerPower, Finset.range_zero, Finset.prod_empty]
    exact if_pos (Subsingleton.elim (α := Fin 1) i j)
  | succ n ih =>
    have hlow (i : ℕ) : bit i 0 = Fin.ofNat 2 i := by
      refine Fin.ext ?_
      rw [bit, Nat.testBit_zero, Fin.val_ofNat]
      rcases Nat.mod_two_eq_zero_or_one i with h | h <;> rw [h] <;> rfl
    have hhigh (i w : ℕ) : bit i (w + 1) = bit (i / 2) w := by rw [bit, Nat.testBit_succ, bit]
    rw [Finset.prod_range_succ']
    simp only [hhigh, hlow]
    exact congrArg (· * _) (ih _ _)

end Operator
end QuantumCircuits
end
