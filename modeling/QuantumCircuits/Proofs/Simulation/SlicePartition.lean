import Mathlib
import QuantumCircuits.Proofs.Simulation.Outcomes
import QuantumCircuits.Proofs.Simulation.Slices

/-! The slices of a state share its amplitudes out. What an index reads on the listed wires and what it reads on the
others tell in which slice it is met, and at which place, so that all slices together meet each index once. -/

namespace QuantumCircuits.State
open QuantumCircuits.Basis

variable {n k rest bits i : ℕ} {wires : List ℕ}

section Indices

theorem gather_sliceIndex_others (h : Selects n k wires) (hrest : rest < 2 ^ (n - k)) :
    gather (sliceIndex n wires rest bits) (others n wires) = rest := by
  rw [← h.others.val_read]
  refine congrArg Fin.val (ext_testBit (j := ⟨rest, hrest⟩) fun j hj => ?_)
  have hlen : j < (others n wires).length := h.others.length ▸ hj
  obtain ⟨hbelow, hmem⟩ := mem_others.1 (List.getElem_mem hlen)
  rw [h.others.testBit_read _ hj, List.getD_eq_getElem _ _ hlen, testBit_sliceIndex_of_not_mem h hbelow hmem,
    h.others.nodup.idxOf_getElem]

def slicePlace (n : ℕ) (wires : List ℕ) (i : ℕ) : ℕ × ℕ := (gather i wires, gather i (others n wires))

theorem sliceIndex_gather (h : Selects n k wires) (hi : i < 2 ^ n) :
    sliceIndex n wires (gather i (others n wires)) (gather i wires) = i := by
  refine congrArg Fin.val (ext_testBit (i := slicePoint h _ _) (j := ⟨i, hi⟩) fun w hw => ?_)
  by_cases hmem : w ∈ wires
  · obtain ⟨j, hj, rfl⟩ := List.getElem_of_mem hmem
    have hj' : j < k := h.length ▸ hj
    rw [← List.getD_eq_getElem _ 0 hj]
    refine (testBit_sliceIndex_getD h hj').trans ?_
    rw [← h.val_read, h.testBit_read _ hj']
  · have hother : w ∈ others n wires := mem_others.2 ⟨hw, hmem⟩
    have hplace := List.idxOf_lt_length_iff.2 hother
    refine (testBit_sliceIndex_of_not_mem h hw hmem).trans ?_
    rw [← h.others.val_read, h.others.testBit_read _ (h.others.length ▸ hplace), List.getD_eq_getElem _ _ hplace,
      List.getElem_idxOf]

theorem sliceIndex_bijOn (h : Selects n k wires) : Set.BijOn (fun p : ℕ × ℕ => sliceIndex n wires p.2 p.1)
    (Set.Iio (2 ^ k) ×ˢ Set.Iio (2 ^ (n - k))) (Set.Iio (2 ^ n)) := by
  have hleft : Set.LeftInvOn (slicePlace n wires) (fun p : ℕ × ℕ => sliceIndex n wires p.2 p.1)
      (Set.Iio (2 ^ k) ×ˢ Set.Iio (2 ^ (n - k))) := by
    rintro ⟨bits, rest⟩ ⟨hbits, hrest⟩
    exact Prod.ext (gather_sliceIndex h hbits) (gather_sliceIndex_others h hrest)
  have hright : Set.RightInvOn (slicePlace n wires) (fun p : ℕ × ℕ => sliceIndex n wires p.2 p.1) (Set.Iio (2 ^ n)) :=
    fun i hi => sliceIndex_gather h hi
  refine Set.InvOn.bijOn ⟨hleft, hright⟩ (fun p _ => sliceIndex_lt h) fun i _ => ?_
  exact ⟨(gather_lt i wires).trans_eq (congrArg _ h.length), (gather_lt i _).trans_eq (congrArg _ h.others.length)⟩

def sliceIndices (n k : ℕ) (wires : List ℕ) : List ℕ :=
  (indices (n - k)).flatMap fun rest => (indices k).map fun bits => sliceIndex n wires rest bits

theorem sliceIndices_perm (h : Selects n k wires) : (sliceIndices n k wires).Perm (indices n) := by
  have hpairs : sliceIndices n k wires = ((indices (n - k)).product (indices k)).map fun p => sliceIndex n wires p.1 p.2 := by
    simp only [sliceIndices, List.product, List.map_flatMap, List.map_map]
    rfl
  obtain ⟨hmaps, hinj, hsurj⟩ := sliceIndex_bijOn h
  have hnodup : (sliceIndices n k wires).Nodup := by
    rw [hpairs]
    refine (List.nodup_range.product List.nodup_range).map_on ?_
    rintro ⟨rest, bits⟩ hp ⟨rest', bits'⟩ hq hsame
    obtain ⟨hrest, hbits⟩ := List.mem_product.1 hp
    obtain ⟨hrest', hbits'⟩ := List.mem_product.1 hq
    have hpair : (bits, rest) = (bits', rest') := hinj ⟨mem_indices.1 hbits, mem_indices.1 hrest⟩
      ⟨mem_indices.1 hbits', mem_indices.1 hrest'⟩ hsame
    obtain ⟨rfl, rfl⟩ := Prod.mk.inj hpair
    rfl
  refine (List.perm_ext_iff_of_nodup hnodup List.nodup_range).2 fun i => Iff.trans ?_ mem_indices.symm
  rw [hpairs, List.mem_map]
  constructor
  · rintro ⟨p, _, rfl⟩
    exact sliceIndex_lt h
  · intro hi
    obtain ⟨⟨bits, rest⟩, ⟨hbits, hrest⟩, rfl⟩ := hsurj hi
    exact ⟨(rest, bits), List.mem_product.2 ⟨mem_indices.2 hrest, mem_indices.2 hbits⟩, rfl⟩

end Indices

noncomputable section Amplitudes

variable {s : State ℝ}

theorem flatMap_slice (h : Selects s.qubits k wires) : (indices (s.qubits - k)).flatMap (s.slice wires) =
    (sliceIndices s.qubits k wires).map s.amp := by
  rw [sliceIndices, List.map_flatMap]
  refine List.flatMap_congr fun rest _ => ?_
  rw [slice, h.length, List.map_map]
  rfl

theorem flatMap_slice_perm (h : Selects s.qubits k wires) :
    ((indices (s.qubits - k)).flatMap (s.slice wires)).Perm s.toList := by
  rw [flatMap_slice h, toList_eq]
  exact (sliceIndices_perm h).map s.amp

theorem sum_length_slice_sq (h : Selects s.qubits k wires) :
    ∑ rest ∈ Finset.range (2 ^ (s.qubits - k)), Cx.length (s.slice wires rest) ^ 2 = s.norm ^ 2 :=
  calc ∑ rest ∈ Finset.range (2 ^ (s.qubits - k)), Cx.length (s.slice wires rest) ^ 2
      = ((indices (s.qubits - k)).map fun rest => ((s.slice wires rest).map Cx.normSq).sum).sum :=
        Finset.sum_congr rfl fun rest _ => Cx.length_sq _
    _ = (((indices (s.qubits - k)).flatMap (s.slice wires)).map Cx.normSq).sum := by
        rw [List.map_flatMap, List.flatMap_def, List.sum_flatten, List.map_map]
        rfl
    _ = (s.toList.map Cx.normSq).sum := ((flatMap_slice_perm h).map Cx.normSq).sum_eq
    _ = s.norm ^ 2 := (Cx.length_sq s.toList).symm

/-- The slices over a list of different wires share the state out: a slice and a place in it are met at one index each,
no place is out of range, all slices together have each amplitude once, and their squared lengths add up to that of the
state. -/
theorem slices_partition (s : State ℝ) (h : Selects s.qubits k wires) :
    Set.BijOn (fun p : ℕ × ℕ => sliceIndex s.qubits wires p.2 p.1)
      (Set.Iio (2 ^ k) ×ˢ Set.Iio (2 ^ (s.qubits - k))) (Set.Iio (2 ^ s.qubits)) ∧
    (∀ rest, (s.slice wires rest).length = 2 ^ k ∧ ∀ bits < 2 ^ k, ∃ a,
      s.amplitude? (sliceIndex s.qubits wires rest bits) = some a ∧ (s.slice wires rest)[bits]? = some a) ∧
    ((indices (s.qubits - k)).flatMap (s.slice wires)).Perm s.toList ∧
    ∑ rest ∈ Finset.range (2 ^ (s.qubits - k)), Cx.length (s.slice wires rest) ^ 2 = s.norm ^ 2 := by
  refine ⟨sliceIndex_bijOn h, fun rest => ⟨length_slice h.length, fun bits hbits => ?_⟩, flatMap_slice_perm h,
    sum_length_slice_sq h⟩
  have hinside : s.amplitude? (sliceIndex s.qubits wires rest bits) = some _ := amplitude?_of_lt (sliceIndex_lt h)
  exact ⟨_, hinside, (getElem?_slice h hbits).trans hinside⟩

theorem slices_partition_around : Selects (State.basis 3 4 : State ℝ).qubits 2 [2, 0] ∧
    ((indices 1).flatMap ((State.basis 3 4 : State ℝ).slice [2, 0])).Perm (State.basis 3 4 : State ℝ).toList ∧
    ∑ rest ∈ Finset.range 2, Cx.length ((State.basis 3 4 : State ℝ).slice [2, 0] rest) ^ 2 =
      (State.basis 3 4 : State ℝ).norm ^ 2 := by
  have hwires : Selects (State.basis 3 4 : State ℝ).qubits 2 [2, 0] := ⟨rfl, by decide, by decide⟩
  obtain ⟨_, _, hperm, hsum⟩ := slices_partition (.basis 3 4) hwires
  exact ⟨hwires, hperm, hsum⟩

end Amplitudes
end QuantumCircuits.State
