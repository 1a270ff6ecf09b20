import Mathlib
import QuantumCircuits.Proofs.Algorithm.LinearSystem
import QuantumCircuits.Proofs.Circuit.Session
import QuantumCircuits.Proofs.Simulation.Slices

/-! Reading the solution of a linear system. The slice over one register is taken where the first wire of another
one reads one, which is a place among the wires that the first register leaves. Registers of a circuit share no wires,
wherever they lie, so that there is such a place. -/

noncomputable section
namespace QuantumCircuits
open QuantumCircuits.Basis

section Marked

variable {n d marked value i k : ℕ} {wires : List ℕ}

/-- Of `n` wires the listed ones hold a value, the marked one reads one, and all others read zero. -/
structure Basis.HoldsMarked (n : ℕ) (wires : List ℕ) (marked value i : ℕ) : Prop where
  below : i < 2 ^ n
  holds : gather i wires = value
  set : i.testBit marked = true
  clear : ∀ w < n, w ∉ wires → w ≠ marked → i.testBit w = false

theorem Basis.HoldsMarked.unique (hi : HoldsMarked n wires marked value i) (hk : HoldsMarked n wires marked value k) :
    k = i := by
  apply Nat.eq_of_testBit_eq
  intro w
  by_cases hw : w < n
  · by_cases hmem : w ∈ wires
    · obtain ⟨j, hj, rfl⟩ := List.getElem_of_mem hmem
      have hread := congrArg (Nat.testBit · j) (hk.holds.trans hi.holds.symm)
      simpa [testBit_gather, hj] using hread
    · by_cases hmarked : w = marked
      · rw [hmarked, hk.set, hi.set]
      · rw [hk.clear w hw hmem hmarked, hi.clear w hw hmem hmarked]
  · have hle := Nat.pow_le_pow_right Nat.two_pos (not_lt.1 hw)
    rw [Nat.testBit_lt_two_pow (hk.below.trans_le hle), Nat.testBit_lt_two_pow (hi.below.trans_le hle)]

theorem State.holdsMarked_sliceIndex (h : Selects n d wires) (hbelow : marked < n) (hfree : marked ∉ wires)
    {bits : ℕ} (hbits : bits < 2 ^ d) :
    HoldsMarked n wires marked bits (sliceIndex n wires (1 <<< (others n wires).idxOf marked) bits) := by
  have hmem : marked ∈ others n wires := mem_others.2 ⟨hbelow, hfree⟩
  constructor
  · exact sliceIndex_lt h
  · exact gather_sliceIndex h hbits
  · rw [testBit_sliceIndex_of_not_mem h hbelow hfree, Nat.one_shiftLeft, Nat.testBit_two_pow_self]
  · intro w hw hwires hne
    rw [testBit_sliceIndex_of_not_mem h hw hwires, Nat.one_shiftLeft]
    exact Nat.testBit_two_pow_of_ne fun hplace => hne ((List.idxOf_inj hmem).1 hplace).symm

end Marked

variable {R : Type} [Scalar R]

namespace LinearSystem

variable {c : Circuit R} {s : State R} {b ancilla : Register}

/-- In a circuit that checked calls have built, entry `j` of the solution is the amplitude of the one basis state in
which the first register named b holds `j`, the first wire of the first register named anc reads one, and all other
wires read zero. -/
theorem solution_reads (hc : c.Built) (hb : c.layout.find? "b" = some b) (hancilla : c.layout.find? "anc" = some ancilla)
    (hs : s.qubits = c.wires) :
    ∃ xs, solution c s = .ok xs ∧ xs.length = 2 ^ b.size ∧
      ∀ j < 2 ^ b.size, ∃ i, HoldsMarked c.wires b.wires (ancilla.wire 0) j i ∧
        (∀ k, HoldsMarked c.wires b.wires (ancilla.wire 0) j k → k = i) ∧ xs[j]? = s.amplitude? i := by
  have hlayout : c.layout.WellFormed := hc.wellFormed.layout
  obtain ⟨hbmem, hbname⟩ := Layout.mem_of_find? hb
  obtain ⟨hamem, haname⟩ := Layout.mem_of_find? hancilla
  have hwires := hlayout.selects hbmem
  have hfirst : ancilla.wire 0 ∈ ancilla.wires :=
    Register.mem_wires.2 ⟨le_rfl, Nat.add_lt_add_left (hlayout.nonempty _ hamem) _⟩
  have hne : ancilla ≠ b := by
    rintro rfl
    exact absurd (hbname.symm.trans haname) (by decide)
  have hfree : ancilla.wire 0 ∉ b.wires := hlayout.disjoint hamem hbmem hne hfirst
  have hbelow : ancilla.wire 0 < c.wires := (hlayout.selects hamem).below _ hfirst
  have hposition : (others c.wires b.wires).idxOf? (ancilla.wire 0) =
      some ((others c.wires b.wires).idxOf (ancilla.wire 0)) :=
    List.findIdx?_eq_some_of_exists ⟨_, mem_others.2 ⟨hbelow, hfree⟩, beq_self_eq_true _⟩
  refine ⟨_, solution_eq_slice hb hancilla hposition, ?_, fun j hj => ?_⟩
  · exact State.length_slice hwires.length
  · have hholds := State.holdsMarked_sliceIndex hwires hbelow hfree hj
    refine ⟨_, hholds, fun k hk => hholds.unique hk, ?_⟩
    rw [State.getElem?_slice (hs ▸ hwires) hj, hs]
    rfl

def scattered : Circuit ℝ := ⟨"solve", ⟨[⟨"anc", 2, 0⟩, ⟨"b", 2, 2⟩, ⟨"c", 1, 4⟩, ⟨"b", 1, 5⟩], 6⟩, []⟩

theorem scattered_built : scattered.Built := by
  have hget : (Session.run [.newCircuit "solve", .addRegister 0 "anc" 2, .addRegister 0 "b" 2, .addRegister 0 "c" 1,
      .addRegister 0 "b" 1] : Session ℝ).circuits[0]? = some scattered := by cbv
  exact ⟨_, List.mem_of_getElem? hget⟩

theorem solution_reads_scattered : scattered.Built ∧ scattered.layout.find? "b" = some ⟨"b", 2, 2⟩ ∧
    scattered.layout.find? "anc" = some ⟨"anc", 2, 0⟩ ∧
    ∃ xs, solution scattered (.basis 6 9) = .ok xs ∧ xs.length = 4 ∧ xs[2]? = some 1 := by
  have hb : scattered.layout.find? "b" = some ⟨"b", 2, 2⟩ := by decide
  have hancilla : scattered.layout.find? "anc" = some ⟨"anc", 2, 0⟩ := by decide
  obtain ⟨xs, hsolution, hlength, hentries⟩ := solution_reads scattered_built hb hancilla (s := .basis 6 9) rfl
  obtain ⟨i, _, hunique, hentry⟩ := hentries 2 (by decide)
  obtain rfl : 9 = i := hunique 9 ⟨by decide, by decide, by decide, by decide⟩
  refine ⟨scattered_built, hb, hancilla, xs, hsolution, hlength, hentry.trans ?_⟩
  rw [State.amplitude?_of_lt (show 9 < 2 ^ 6 by decide), State.basis, State.amp_ofFn _ _ (by decide), if_pos rfl]

end LinearSystem
end QuantumCircuits
end
