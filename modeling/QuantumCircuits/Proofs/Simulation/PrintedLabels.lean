import Mathlib
import QuantumCircuits.Number.Binary64
import QuantumCircuits.Optimization.AlternatingAnsatz
import QuantumCircuits.Proofs.Basis.Labels
import QuantumCircuits.Proofs.Basis.Numerals
import QuantumCircuits.Proofs.Simulation.Realization

/-! Labels that are printed read back. A label is as long as there are wires, so that its length gives the wires and
its digits the basis state, whoever prints it: a histogram, an optimisation problem or a state. -/

namespace QuantumCircuits
open QuantumCircuits.Basis

variable {n i j : ℕ}

namespace Basis

theorem isBitstring_label (hn : 0 < n) (hi : i < 2 ^ n) : State.IsBitstring (label n i).toList := by
  rw [toList_label hn hi]
  refine ⟨?_, fun c hc => ?_⟩
  · rw [Ne, List.map_eq_nil_iff, List.range_eq_nil]
    exact hn.ne'
  · obtain ⟨j, _, rfl⟩ := List.mem_map.1 hc
    cases i.testBit (n - 1 - j)
    · exact .inl rfl
    · exact .inr rfl

theorem getElem?_reverse_label {w : ℕ} (hi : i < 2 ^ n) (hw : w < n) :
    (label n i).toList.reverse[w]? = some (digit (i.testBit w)) := by
  have hlength : (label n i).toList.length = n := String.length_toList.trans (length_label (Nat.zero_lt_of_lt hw) hi)
  have hplace : n - 1 - (n - 1 - w) = w := by omega
  rw [List.getElem?_reverse (hlength.symm ▸ hw), hlength, getElem?_label hi (by omega), hplace]

theorem numeral_label (hn : 0 < n) (hi : i < 2 ^ n) : State.numeral 0 (label n i).toList = i := by
  apply Nat.eq_of_testBit_eq
  intro w
  rw [State.testBit_numeral, String.length_toList, length_label hn hi]
  split
  · next hw =>
    rw [getElem?_reverse_label hi hw]
    cases i.testBit w <;> rfl
  · next hw =>
    rw [Nat.zero_testBit, Nat.testBit_lt_two_pow (hi.trans_le (Nat.pow_le_pow_right Nat.two_pos (not_lt.1 hw)))]

theorem label_inj (hn : 0 < n) (hi : i < 2 ^ n) (hj : j < 2 ^ n) (h : label n i = label n j) : i = j := by
  rw [← numeral_label hn hi, h, numeral_label hn hj]

end Basis

namespace State

variable {R : Type} [Scalar R]

theorem ofLabel_label (hn : 0 < n) (hn' : n ≤ 63) (hi : i < 2 ^ n) :
    (ofLabel (label n i) : Except Fault (State R)) = .ok (basis n i) := by
  have hnumeral : IsNumeral (label n i).toList := .inl (isBitstring_label hn hi)
  have hsize : (label n i).utf8ByteSize < 64 := by
    rw [← String.utf8Len_toList, hnumeral.utf8Len_eq, String.length_toList, length_label hn hi]
    exact Nat.lt_succ_of_le hn'
  rw [ofLabel_of_isNumeral hsize hnumeral, length_label hn hi, numeral_label hn hi]

theorem text_eq [DecimalText R] (s : State R) : s.text = String.join ((indices s.qubits).map fun i =>
    "|" ++ label s.qubits i ++ ">: " ++ (s.amp i).text ++ "\n") := by
  rw [text, zipIdx_toList, List.map_map]
  rfl

/-- A histogram and a problem of as many wires print one label for a basis state, and a state prints it in front of
the amplitude, for all basis states in ascending order. The label has a character for each wire, the highest wire first,
it reads back as the basis state, and different basis states have different labels. -/
theorem ofLabel_printed [DecimalText R] (hn : 1 ≤ n) (hn' : n ≤ 63) (h : Histogram) (a : AlternatingAnsatz R)
    (s : State R) (hh : h.wires = n) (ha : a.variableCount = n) (hs : s.qubits = n) :
    s.text = String.join ((indices n).map fun i => "|" ++ h.label i ++ ">: " ++ (s.amp i).text ++ "\n") ∧
    (∀ i < 2 ^ n, a.label i = h.label i ∧ (h.label i).length = n ∧
      (∀ w < n, (h.label i).toList.reverse[w]? = some (digit (i.testBit w))) ∧
      (ofLabel (h.label i) : Except Fault (State R)) = .ok (basis n i)) ∧
    ∀ i < 2 ^ n, ∀ j < 2 ^ n, h.label i = h.label j → i = j := by
  have hhistogram : h.label = label n := congrArg label hh
  have hproblem : a.label = label n := congrArg label ha
  rw [hhistogram, hproblem]
  refine ⟨hs ▸ text_eq s, fun i hi => ⟨rfl, length_label hn hi, fun w => getElem?_reverse_label hi, ?_⟩, ?_⟩
  · exact ofLabel_label hn hn' hi
  · exact fun i hi j hj => label_inj hn hi hj

def layerless : AlternatingAnsatz Float := ⟨[⟨[none, some true, none], 2⟩], 3, 0, 1024, 1000, .empty "qaoa"⟩

theorem ofLabel_printed_leading : 1 ≤ 3 ∧ 3 ≤ 63 ∧ (Histogram.empty 3).wires = 3 ∧ layerless.variableCount = 3 ∧
    (basis 3 1 : State Float).qubits = 3 ∧ (Histogram.empty 3).label 1 = "001" ∧ layerless.label 1 = "001" ∧
    (ofLabel "001" : Except Fault (State Float)) = .ok (basis 3 1) := by
  have hlabel : (Histogram.empty 3).label 1 = "001" := by cbv
  obtain ⟨_, hprinted, _⟩ := ofLabel_printed (n := 3) (by decide) (by decide) (Histogram.empty 3) layerless
    (basis 3 1 : State Float) rfl rfl rfl
  obtain ⟨hsame, _, _, hread⟩ := hprinted 1 (by decide)
  rw [hlabel] at hsame hread
  exact ⟨by decide, by decide, rfl, rfl, rfl, hlabel, hsame, hread⟩

end State
end QuantumCircuits
