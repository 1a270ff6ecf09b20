import Mathlib
import QuantumCircuits.Proofs.Basis.Wires

/-! Linear maps on the basis states of a register. A map on a few wires is placed on wires of a
larger register, under controls; placing keeps products and adjoints, and placing twice is placing
once on the wires that both lists name together. -/

noncomputable section
namespace QuantumCircuits
open Matrix QuantumCircuits.Basis

/-- A linear map on the basis states of `n` wires. -/
abbrev Operator (n : ℕ) := Matrix (Fin (2 ^ n)) (Fin (2 ^ n)) ℂ

namespace Operator

variable {n d k : ℕ}

/-- The map that acts as `m` on the listed wires where every control reads its flag, and as the
identity on all other wires and where a control does not. -/
def placed (controls : List (ℕ × Bool)) (wires : List ℕ) (m : Operator d) : Operator n := fun i j =>
  if holds controls i.val then
    if clear i.val wires = clear j.val wires then m (read d wires i.val) (read d wires j.val) else 0
  else (1 : Operator n) i j

theorem ext_mulVec {a b : Operator n} (h : ∀ v, a *ᵥ v = b *ᵥ v) : a = b := by
  ext i j
  simpa using congrFun (h (Pi.single j 1)) i

variable {controls more : List (ℕ × Bool)} {wires others : List ℕ}

theorem placed_mulVec (h : Selects n d wires) (m : Operator d) (v : Fin (2 ^ n) → ℂ)
    (i : Fin (2 ^ n)) :
    (placed controls wires m *ᵥ v) i =
      if holds controls i.val then ∑ b, m (read d wires i.val) b * v (write wires i b) else v i := by
  rw [mulVec, dotProduct]
  by_cases active : holds controls i.val
  · simp only [placed, if_pos active, ite_mul, zero_mul]
    rw [← Finset.sum_filter,
      ← h.sum_write i fun k => m (read d wires i.val) (read d wires k.val) * v k]
    exact Finset.sum_congr rfl fun b _ => by rw [h.read_write]
  · simp only [placed, if_neg active, Matrix.one_apply, ite_mul, one_mul, zero_mul]
    simp

theorem placed_nil_mulVec (h : Selects n d wires) (m : Operator d) (v : Fin (2 ^ n) → ℂ) (i : Fin (2 ^ n)) :
    (placed [] wires m *ᵥ v) i = ∑ b, m (read d wires i.val) b * v (write wires i b) :=
  (placed_mulVec h m v i).trans (if_pos rfl)

theorem placed_one (h : Selects n d wires) : placed controls wires (1 : Operator d) = (1 : Operator n) := by
  apply ext_mulVec
  intro v
  funext i
  rw [placed_mulVec h, one_mulVec]
  split
  · simp only [Matrix.one_apply, ite_mul, one_mul, zero_mul, Finset.sum_ite_eq, Finset.mem_univ,
      if_true]
    rw [h.write_read rfl]
  · rfl

theorem placed_mul (h : Selects n d wires) (free : ∀ c ∈ controls, c.1 ∉ wires) (a b : Operator d) :
    placed controls wires (a * b) = (placed controls wires a * placed controls wires b : Operator n) := by
  apply ext_mulVec
  intro v
  funext i
  rw [← mulVec_mulVec, placed_mulVec h, placed_mulVec h]
  split
  · next active =>
    have inner (x : Fin (2 ^ d)) : (placed controls wires b *ᵥ v) (write wires i x) =
        ∑ y, b x y * v (write wires i y) := by
      rw [placed_mulVec h, h.holds_write free, if_pos active, h.read_write]
      exact Finset.sum_congr rfl fun y _ => by rw [h.write_write]
    simp only [inner, Matrix.mul_apply, Finset.sum_mul, Finset.mul_sum]
    rw [Finset.sum_comm]
    simp only [mul_assoc]
  · next inactive => rw [placed_mulVec h, if_neg inactive]

theorem placed_pow (h : Selects n d wires) (free : ∀ c ∈ controls, c.1 ∉ wires) (m : Operator d)
    (e : ℕ) : placed controls wires (m ^ e) = (placed controls wires m : Operator n) ^ e := by
  induction e with
  | zero => rw [pow_zero, pow_zero, placed_one h]
  | succ e ih => rw [pow_succ, pow_succ, placed_mul h free, ih]

theorem placed_conjTranspose (free : ∀ c ∈ controls, c.1 ∉ wires) (m : Operator d) :
    placed controls wires mᴴ = (placed controls wires m : Operator n)ᴴ := by
  ext i j
  rw [conjTranspose_apply]
  by_cases same : clear i.val wires = clear j.val wires
  · have hactive : holds controls i.val = holds controls j.val :=
      holds_congr fun c hc => clear_eq_clear_iff.1 same _ (free c hc)
    simp only [placed, hactive, same, if_true, conjTranspose_apply]
    split
    · rfl
    · simp only [Matrix.one_apply, eq_comm (a := i), apply_ite star, star_one, star_zero]
  · have hne : i ≠ j := fun h => same (by rw [h])
    simp only [placed, if_neg same, if_neg (Ne.symm same), Matrix.one_apply_ne hne,
      Matrix.one_apply_ne hne.symm, ite_self, star_zero]

theorem placed_range (m : Operator n) : placed [] (List.range n) m = m := by
  have h := Selects.range n
  apply ext_mulVec
  intro v
  funext i
  have hwrite (b : Fin (2 ^ n)) : write (List.range n) i b = b := Fin.ext (val_write_range le_rfl i.isLt b)
  have hread : read n (List.range n) i.val = i := (read_range n i).trans (Fin.ext (val_state_of_lt i.isLt))
  rw [placed_mulVec h, hread]
  simp only [hwrite]
  rfl

def adjointIf (adjoint : Bool) (m : Operator n) : Operator n := if adjoint then mᴴ else m

theorem adjointIf_not (adjoint : Bool) (m : Operator n) :
    adjointIf (!adjoint) m = adjointIf adjoint mᴴ := by
  cases adjoint with
  | true => exact (conjTranspose_conjTranspose m).symm
  | false => rfl

theorem adjointIf_one (adjoint : Bool) : adjointIf adjoint (1 : Operator n) = 1 := by
  cases adjoint with
  | true => exact conjTranspose_one
  | false => rfl

theorem adjointIf_pow (adjoint : Bool) (m : Operator n) (e : ℕ) :
    adjointIf adjoint (m ^ e) = adjointIf adjoint m ^ e := by
  cases adjoint with
  | true => exact conjTranspose_pow m e
  | false => rfl

theorem adjointIf_placed (free : ∀ c ∈ controls, c.1 ∉ wires) (adjoint : Bool) (m : Operator d) :
    adjointIf adjoint (placed controls wires m : Operator n) =
      placed controls wires (adjointIf adjoint m) := by
  cases adjoint with
  | true => exact (placed_conjTranspose free m).symm
  | false => rfl

theorem placed_prod (h : Selects n d wires)
    (free : ∀ c ∈ controls, c.1 ∉ wires) (ms : List (Operator d)) :
    placed controls wires ms.prod = (ms.map (placed controls wires : Operator d → Operator n)).prod := by
  induction ms with
  | nil => rw [List.prod_nil, List.map_nil, List.prod_nil, placed_one h]
  | cons m ms ih => rw [List.prod_cons, List.map_cons, List.prod_cons, placed_mul h free, ih]

def outerControls (wires : List ℕ) (controls : List (ℕ × Bool)) : List (ℕ × Bool) :=
  controls.map fun (w, flag) => (wires.getD w 0, flag)

theorem holds_read (h : Selects n d wires) (below : ∀ c ∈ more, c.1 < d) (i : ℕ) :
    holds more (read d wires i).val = holds (outerControls wires more) i := by
  unfold holds outerControls
  rw [List.all_map, Bool.eq_iff_iff, List.all_eq_true, List.all_eq_true]
  refine forall₂_congr fun c hc => ?_
  change ((read d wires i).val.testBit c.1 == c.2) = true ↔ (i.testBit (wires.getD c.1 0) == c.2) = true
  rw [h.testBit_read i (below c hc)]

theorem read_read (h : Selects n d wires) (hin : Selects d k others) (i : ℕ) :
    read k others (read d wires i).val = read k (Instruction.outer wires others) i := by
  have hout := h.outer hin
  apply ext_testBit
  intro j hj
  have hlen : j < others.length := hin.length ▸ hj
  have hmem : others.getD j 0 < d := hin.below _ (hin.getD_mem hj)
  rw [hin.testBit_read _ hj, h.testBit_read _ hmem, hout.testBit_read _ hj]
  simp [Instruction.outer, hlen]

theorem write_write_read (h : Selects n d wires) (hin : Selects d k others) (i : Fin (2 ^ n))
    (b : Fin (2 ^ k)) :
    write wires i (write others (read d wires i.val) b) =
      write (Instruction.outer wires others) i b := by
  have hout := h.outer hin
  apply h.ext
  · intro l hl
    rw [h.testBit_write_getD _ _ hl]
    by_cases hmem : l ∈ others
    · obtain ⟨j, hj, rfl⟩ := List.getElem_of_mem hmem
      have hj' : j < k := hin.length ▸ hj
      have hget : (Instruction.outer wires others).getD j 0 = wires.getD others[j] 0 := by
        simp [Instruction.outer, hj]
      rw [← List.getD_eq_getElem _ 0 hj, hin.testBit_write_getD _ _ hj', List.getD_eq_getElem _ _ hj,
        ← hget, hout.testBit_write_getD _ _ hj']
    · have hout_mem : wires.getD l 0 ∉ Instruction.outer wires others := by
        intro hw
        obtain ⟨j, hj, same⟩ := List.mem_map.1 hw
        exact hmem (h.getD_inj (hin.below j hj) hl same ▸ hj)
      rw [hin.testBit_write_of_not_mem _ _ hmem, h.testBit_read _ hl,
        hout.testBit_write_of_not_mem _ _ hout_mem]
  · intro w hw
    have hout_mem : w ∉ Instruction.outer wires others := by
      intro hmem
      obtain ⟨j, hj, rfl⟩ := List.mem_map.1 hmem
      exact hw (h.getD_mem (hin.below j hj))
    rw [h.testBit_write_of_not_mem _ _ hw, hout.testBit_write_of_not_mem _ _ hout_mem]

/-- Placing twice is placing once, with both lists of controls, on the wires of the inner list as
wires of the register. -/
theorem placed_placed (h : Selects n d wires) (hin : Selects d k others)
    (below : ∀ c ∈ more, c.1 < d) (m : Operator k) :
    placed controls wires (placed more others m : Operator d) =
      (placed (controls ++ outerControls wires more) (Instruction.outer wires others) m :
        Operator n) := by
  apply ext_mulVec
  intro v
  funext i
  rw [placed_mulVec h, placed_mulVec (h.outer hin), holds_append]
  by_cases active : holds controls i.val
  · have inner : (placed more others m *ᵥ fun b => v (write wires i b)) (read d wires i.val) = _ :=
      placed_mulVec hin m _ _
    rw [mulVec, dotProduct] at inner
    rw [if_pos active, inner, holds_read h below, read_read h hin]
    simp only [active, Bool.true_and, write_write_read h hin]
    rw [h.write_read rfl]
  · simp [active]

theorem outerControls_zip (h : k ≤ wires.length) (flags : List Bool) :
    outerControls wires ((List.range k).zip flags) = (wires.take k).zip flags := by
  rw [← Instruction.outer_range h, Instruction.outer, List.zip_map_left]
  rfl

theorem outerControls_set (h : k ≤ wires.length) :
    outerControls wires ((List.range k).map fun w => (w, true)) =
      (wires.take k).map fun w => (w, true) := by
  rw [← Instruction.outer_range h, Instruction.outer, outerControls, List.map_map, List.map_map]
  rfl

theorem fst_lt_of_mem_map : ∀ c ∈ (List.range k).map fun w => (w, true), c.1 < k := by
  intro c hc
  obtain ⟨w, hw, rfl⟩ := List.mem_map.1 hc
  exact List.mem_range.1 hw

theorem fst_lt_of_mem_zip {flags : List Bool} : ∀ c ∈ (List.range k).zip flags, c.1 < k :=
  fun _ hc => List.mem_range.1 (List.of_mem_zip hc).1

theorem not_mem_range' {own : List (ℕ × Bool)} (hown : ∀ c ∈ own, c.1 < k) :
    ∀ c ∈ own, c.1 ∉ List.range' k d := by
  intro c hc hmem
  have habove := (List.mem_range'_1.1 hmem).1
  exact absurd (hown c hc) (by omega)

theorem placed_leading {a : ℕ} {own : List (ℕ × Bool)} (h : Selects n a wires) (hsum : k + d = a)
    (hown : ∀ c ∈ own, c.1 < k) (adjoint : Bool) (m : Operator d) :
    placed controls wires (adjointIf adjoint (placed own (List.range' k d) m : Operator a)) =
      (placed (controls ++ outerControls wires own) (wires.drop k) (adjointIf adjoint m) :
        Operator n) := by
  have hbelow : ∀ c ∈ own, c.1 < a := fun c hc => (hown c hc).trans_le (by omega)
  rw [adjointIf_placed (not_mem_range' hown), placed_placed h (Selects.range' hsum) hbelow,
    Instruction.outer_range' (hsum.trans h.length.symm)]

theorem placed_commute (h : Selects n d wires) (h' : Selects n k others)
    (disjoint : ∀ w ∈ wires, w ∉ others) (free : ∀ c ∈ controls, c.1 ∉ others)
    (free' : ∀ c ∈ more, c.1 ∉ wires) (a : Operator d) (b : Operator k) :
    Commute (placed controls wires a : Operator n) (placed more others b) := by
  have disjoint' (w : ℕ) (hw : w ∈ others) : w ∉ wires := fun hmem => disjoint w hmem hw
  apply ext_mulVec
  intro v
  funext i
  rw [← mulVec_mulVec, ← mulVec_mulVec, placed_mulVec h, placed_mulVec h']
  simp only [placed_mulVec h, placed_mulVec h', h.holds_write free', h'.holds_write free,
    h.read_write_of_disjoint disjoint', h'.read_write_of_disjoint disjoint, h.write_comm h' disjoint]
  by_cases active : holds controls i.val <;> by_cases active' : holds more i.val
  · simp only [active, active', if_true, Finset.mul_sum]
    rw [Finset.sum_comm]
    simp only [mul_left_comm]
  · simp [active, active']
  · simp [active, active']
  · simp [active, active']

theorem placed_mem_unitary (h : Selects n d wires) (free : ∀ c ∈ controls, c.1 ∉ wires)
    {m : Operator d} (hm : m ∈ unitaryGroup (Fin (2 ^ d)) ℂ) :
    (placed controls wires m : Operator n) ∈ unitaryGroup (Fin (2 ^ n)) ℂ := by
  rw [mem_unitaryGroup_iff, star_eq_conjTranspose, ← placed_conjTranspose free, ← placed_mul h free,
    ← star_eq_conjTranspose, mem_unitaryGroup_iff.1 hm, placed_one h]

end Operator
end QuantumCircuits
end
