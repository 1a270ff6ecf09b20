import Mathlib
import QuantumCircuits.Proofs.Simulation.Density
import QuantumCircuits.Proofs.Simulation.Composition

/-! Overlaps with a unit vector. What a vector has along a unit vector and what is left make up its length,
and so for the readings of the last wires all at once: the part of a vector along a unit vector of the first
wires is a vector of the last wires, of the same length only if the vector is a product of the two. -/

noncomputable section
namespace QuantumCircuits.Operator
open Matrix QuantumCircuits.Basis

section Unit

variable {n : ℕ} {a : Fin (2 ^ n) → ℂ}

theorem normSq_overlap_add_mass (ha : mass a = 1) (v : Fin (2 ^ n) → ℂ) :
    Complex.normSq (star a ⬝ᵥ v) + mass (v - (star a ⬝ᵥ v) • a) = mass v := by
  have hunit : star a ⬝ᵥ a = 1 := by rw [← ofReal_mass, ha, Complex.ofReal_one]
  apply Complex.ofReal_injective
  rw [Complex.ofReal_add, ofReal_mass, ofReal_mass, Complex.normSq_eq_conj_mul_self, star_sub, star_smul,
    sub_dotProduct, dotProduct_sub, dotProduct_sub, smul_dotProduct, smul_dotProduct, dotProduct_smul, dotProduct_smul,
    hunit, star_dotProduct v a]
  simp only [smul_eq_mul, Complex.star_def]
  ring

theorem normSq_overlap_le (ha : mass a = 1) (v : Fin (2 ^ n) → ℂ) : Complex.normSq (star a ⬝ᵥ v) ≤ mass v :=
  (normSq_overlap_add_mass ha v).le.trans' (le_add_of_nonneg_right (mass_nonneg _))

theorem normSq_overlap_eq_iff (ha : mass a = 1) (v : Fin (2 ^ n) → ℂ) :
    Complex.normSq (star a ⬝ᵥ v) = mass v ↔ v = (star a ⬝ᵥ v) • a := by
  rw [← normSq_overlap_add_mass ha v, left_eq_add]
  refine ⟨fun h => sub_eq_zero.1 (eq_zero_of_mass h), fun h => ?_⟩
  rw [sub_eq_zero.2 h, mass]
  simp

end Unit

variable {n k : ℕ}

def part (v : Fin (2 ^ (n + k)) → ℂ) (y : Fin (2 ^ k)) : Fin (2 ^ n) → ℂ :=
  fun x => v ⟨x + 2 ^ n * y, split_lt x.isLt y.isLt⟩

theorem sum_mass_part (v : Fin (2 ^ (n + k)) → ℂ) : ∑ y, mass (part v y) = mass v := by
  have hsplit := Basis.sum_split n k fun i => Complex.normSq (v (state (n + k) i))
  have hvalue {i : ℕ} (hi : i < 2 ^ (n + k)) : state (n + k) i = ⟨i, hi⟩ := Fin.ext (val_state_of_lt hi)
  refine Eq.trans ?_ (hsplit.symm.trans ?_)
  · refine Finset.sum_congr rfl fun y _ => Finset.sum_congr rfl fun x _ => ?_
    rw [hvalue (split_lt x.isLt y.isLt), part]
  · exact Finset.sum_congr rfl fun i _ => by rw [hvalue i.isLt]

def along (a : Fin (2 ^ n) → ℂ) (v : Fin (2 ^ (n + k)) → ℂ) : Fin (2 ^ k) → ℂ := fun y => star a ⬝ᵥ part v y

variable {a : Fin (2 ^ n) → ℂ}

theorem mass_along_le (ha : mass a = 1) (v : Fin (2 ^ (n + k)) → ℂ) : mass (along a v) ≤ mass v := by
  rw [← sum_mass_part v]
  exact Finset.sum_le_sum fun y _ => normSq_overlap_le ha (part v y)

theorem mass_along_eq_iff (ha : mass a = 1) (v : Fin (2 ^ (n + k)) → ℂ) :
    mass (along a v) = mass v ↔ ∀ y, part v y = along a v y • a := by
  rw [← sum_mass_part v]
  refine (Finset.sum_eq_sum_iff_of_le fun y _ => normSq_overlap_le ha (part v y)).trans ⟨fun h y => ?_, fun h y _ => ?_⟩
  · exact (normSq_overlap_eq_iff ha _).1 (h y (Finset.mem_univ y))
  · exact (normSq_overlap_eq_iff ha _).2 (h y)

theorem along_of_product (ha : mass a = 1) {v : Fin (2 ^ (n + k)) → ℂ} {b : Fin (2 ^ k) → ℂ}
    (h : ∀ y, part v y = b y • a) : along a v = b := by
  funext y
  rw [along, h y, dotProduct_smul, ← ofReal_mass, ha, Complex.ofReal_one, smul_eq_mul, mul_one]

theorem along_placed_range' (m : Operator k) (v : Fin (2 ^ (n + k)) → ℂ) :
    along a (placed [] (List.range' n k) m *ᵥ v) = m *ᵥ along a v := by
  have hsel : Selects (n + k) k (List.range' n k) := Selects.range' rfl
  have hread (x : Fin (2 ^ n)) (y : Fin (2 ^ k)) : Basis.read k (List.range' n k) (x + 2 ^ n * y) = y := by
    have hwrite := hsel.read_write ⟨x + 2 ^ n * y, split_lt x.isLt y.isLt⟩ y
    rwa [write_range'_split x.isLt y.isLt] at hwrite
  have hpart (y : Fin (2 ^ k)) : part (placed [] (List.range' n k) m *ᵥ v) y = ∑ z, m y z • part v z := by
    funext x
    rw [part, placed_nil_mulVec hsel, hread, Finset.sum_apply]
    refine Finset.sum_congr rfl fun z _ => ?_
    rw [write_range'_split x.isLt y.isLt]
    rfl
  funext y
  rw [along, hpart, dotProduct_sum]
  exact Finset.sum_congr rfl fun z _ => dotProduct_smul _ _ _

section Last

variable {d : ℕ} {wires : List ℕ}

theorem selects_last (h : Selects (n + k) d wires) (hlast : ∀ w ∈ wires, n ≤ w) :
    Selects k d (wires.map (· - n)) := by
  refine ⟨(List.length_map _).trans h.length, h.nodup.map_on fun w hw w' hw' same => ?_, fun w hw => ?_⟩
  · have := hlast w hw
    have := hlast w' hw'
    omega
  · obtain ⟨w', hw', rfl⟩ := List.mem_map.1 hw
    have := hlast w' hw'
    have := h.below w' hw'
    omega

theorem placed_last (h : Selects (n + k) d wires) (hlast : ∀ w ∈ wires, n ≤ w) (u : Operator d) :
    placed [] (List.range' n k) (placed [] (wires.map (· - n)) u : Operator k) =
      (placed [] wires u : Operator (n + k)) := by
  have houter : Instruction.outer (List.range' n k) (wires.map (· - n)) = wires := by
    rw [Instruction.outer, List.map_map]
    refine (List.map_congr_left fun w hw => ?_).trans (List.map_id wires)
    have hle := hlast w hw
    have hlt : w - n < k := by
      have := h.below w hw
      omega
    simp [hlt, hle]
  have hplaced : placed [] (List.range' n k) (placed [] (wires.map (· - n)) u : Operator k) =
      (placed [] (Instruction.outer (List.range' n k) (wires.map (· - n))) u : Operator (n + k)) :=
    placed_placed (Selects.range' rfl) (selects_last h hlast) (List.forall_mem_nil _) u
  rwa [houter] at hplaced

theorem mass_along_placed (h : Selects (n + k) d wires) (hlast : ∀ w ∈ wires, n ≤ w) {u : Operator d}
    (hu : u ∈ unitaryGroup (Fin (2 ^ d)) ℂ) (v : Fin (2 ^ (n + k)) → ℂ) :
    mass (along a (placed [] wires u *ᵥ v)) = mass (along a v) := by
  have hunitary : (placed [] (wires.map (· - n)) u : Operator k) ∈ unitaryGroup (Fin (2 ^ k)) ℂ :=
    placed_mem_unitary (selects_last h hlast) (List.forall_mem_nil _) hu
  rw [← placed_last h hlast, along_placed_range', mass_mulVec hunitary]

end Last

end QuantumCircuits.Operator
end
