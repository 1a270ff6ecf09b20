import Mathlib
import QuantumCircuits.Basis

/-! Labels of basis states. The label of a basis state of some wires has a digit for each wire, the
highest wire first. -/

namespace QuantumCircuits.Basis

def digit (bit : Bool) : Char := if bit then '1' else '0'

theorem digit_inj {a b : Bool} : digit a = digit b ↔ a = b := by
  cases a <;> cases b <;> decide

theorem digits_eq {k z : ℕ} (hlow : 2 ^ k ≤ z) (hhigh : z < 2 ^ (k + 1)) (rest : List Char) :
    digits z rest = (List.range (k + 1)).map (fun j => digit (z.testBit (k - j))) ++ rest := by
  induction k generalizing z rest with
  | zero =>
    obtain rfl : z = 1 := by omega
    rw [digits, digits]
    rfl
  | succ k ih =>
    have hpos : z ≠ 0 := by
      rintro rfl
      exact absurd hlow (Nat.not_le.2 (Nat.two_pow_pos _))
    have hlow' : 2 ^ k ≤ z / 2 := by
      rw [Nat.le_div_iff_mul_le Nat.two_pos]
      exact hlow
    have hhigh' : z / 2 < 2 ^ (k + 1) := Nat.div_lt_of_lt_mul (by rwa [Nat.mul_comm])
    -- The lowest digit is written first and stands last.
    have hlast : (if z % 2 = 1 then '1' else '0') = digit (z.testBit (k + 1 - (k + 1))) := by
      rw [Nat.sub_self, Nat.testBit_zero, digit]
      simp only [decide_eq_true_eq]
    have hfront : (List.range (k + 1)).map (fun j => digit ((z / 2).testBit (k - j))) =
        (List.range (k + 1)).map fun j => digit (z.testBit (k + 1 - j)) := by
      refine List.map_congr_left fun j hj => ?_
      have hsub : k + 1 - j = k - j + 1 := Nat.succ_sub (Nat.lt_succ_iff.1 (List.mem_range.1 hj))
      rw [hsub, Nat.testBit_succ]
    rw [digits, if_neg hpos, ih hlow' hhigh', hfront, List.range_succ (n := k + 1), List.map_append, List.map_singleton,
      ← hlast, List.append_assoc, List.singleton_append]

theorem toList_label {n z : ℕ} (hn : 0 < n) (hz : z < 2 ^ n) :
    (label n z).toList = (List.range n).map fun j => digit (z.testBit (n - 1 - j)) := by
  rw [label, String.toList_ofList]
  split
  · next hzero =>
    subst hzero
    have hlength : n - 1 + 1 = n := Nat.sub_add_cancel hn
    simp [digit, ← List.replicate_succ', hlength]
  · next hpos =>
    have hlow : 2 ^ Nat.log2 z ≤ z := Nat.log2_self_le hpos
    have hhigh : z < 2 ^ (Nat.log2 z + 1) := Nat.lt_log2_self
    have hwidth : Nat.log2 z < n := (Nat.log2_lt hpos).2 hz
    rw [digits_eq hlow hhigh, List.append_nil, List.length_map, List.length_range]
    refine List.ext_getElem ?_ fun j hj _ => ?_
    · simp only [List.length_append, List.length_replicate, List.length_map, List.length_range]
      omega
    · simp only [List.length_append, List.length_replicate, List.length_map, List.length_range] at hj
      rw [List.getElem_append]
      split
      · next hfill =>
        rw [List.length_replicate] at hfill
        have hbit : z.testBit (n - 1 - j) = false :=
          Nat.testBit_lt_two_pow (hhigh.trans_le (Nat.pow_le_pow_right Nat.two_pos (by omega)))
        simp [hbit, digit]
      · next hdigit =>
        rw [List.length_replicate] at hdigit
        have hplace : Nat.log2 z - (j - (n - (Nat.log2 z + 1))) = n - 1 - j := by omega
        simp [hplace]

theorem length_label {n z : ℕ} (hn : 0 < n) (hz : z < 2 ^ n) : (label n z).length = n := by
  rw [← String.length_toList, toList_label hn hz, List.length_map, List.length_range]

theorem getElem?_label {n z j : ℕ} (hz : z < 2 ^ n) (hj : j < n) :
    (label n z).toList[j]? = some (digit (z.testBit (n - 1 - j))) := by
  rw [toList_label (Nat.zero_lt_of_lt hj) hz, List.getElem?_map, List.getElem?_range hj]
  rfl

end QuantumCircuits.Basis
