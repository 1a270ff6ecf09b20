import Mathlib
import QuantumCircuits.Proofs.Algorithm.Gates

/-! What the builders of linear-system circuits return: the registers and steps of the forward block and
of the full solver, and where the solution is read. -/

namespace QuantumCircuits.LinearSystem
open QuantumCircuits.Basis

variable {R : Type} [Scalar R] {a : DenseMatrix R} {t0 theta : R} {size : Size}

def Size.output (size : Size) : ℕ := size.n + size.t + size.m

def Size.outputs (size : Size) : List ℕ := List.range' size.output size.l

theorem Size.mem_outputs {w : ℕ} : w ∈ size.outputs ↔ size.output ≤ w ∧ w < size.wires :=
  List.mem_range'_1

structure IsAllocated (size : Size) (b c m l : Register) (d : Circuit R) : Prop where
  input : b = ⟨"b", size.n, 0⟩
  counting : c = ⟨"c", size.t, size.n⟩
  workspace : m = ⟨"m", size.m, size.n + size.t⟩
  output : l = ⟨"l", size.l, size.output⟩
  wires : d.wires = size.wires
  registers : d.layout.registers = [b, c, m, l]
  steps : d.steps = []
  madeOf : d.MadeOf Gate.IsNumeric

theorem isAllocated {name : String} {b c m l : Register} {c₁ c₂ c₃ c₄ : Circuit R}
    (hb : (Circuit.empty name).addRegister "b" size.n = .ok (b, c₁))
    (hc : c₁.addRegister "c" size.t = .ok (c, c₂)) (hm : c₂.addRegister "m" size.m = .ok (m, c₃))
    (hl : c₃.addRegister "l" size.l = .ok (l, c₄)) : IsAllocated size b c m l c₄ := by
  obtain ⟨hinput, hwires₁, hregisters₁, hsteps₁⟩ := Circuit.of_addRegister hb
  obtain ⟨hcounting, hwires₂, hregisters₂, hsteps₂⟩ := Circuit.of_addRegister hc
  obtain ⟨hworkspace, hwires₃, hregisters₃, hsteps₃⟩ := Circuit.of_addRegister hm
  obtain ⟨houtput, hwires₄, hregisters₄, hsteps₄⟩ := Circuit.of_addRegister hl
  replace hwires₁ : c₁.wires = size.n := hwires₁.trans (Nat.zero_add _)
  rw [hwires₁] at hcounting hwires₂
  rw [hwires₂] at hworkspace hwires₃
  rw [hwires₃] at houtput hwires₄
  have hempty : (Circuit.empty name : Circuit R).steps = [] := rfl
  have hnone : (Circuit.empty name : Circuit R).layout.registers = [] := rfl
  constructor
  · exact hinput
  · exact hcounting
  · exact hworkspace
  · exact houtput
  · exact hwires₄
  · rw [hregisters₄, hregisters₃, hregisters₂, hregisters₁, hnone]
    rfl
  · rw [hsteps₄, hsteps₃, hsteps₂, hsteps₁, hempty]
  · exact ((((Circuit.MadeOf.empty name).addRegister hb).addRegister hc).addRegister hm).addRegister hl

structure IsForward (size : Size) (body : Circuit R) (front back : List (Step (Operation R))) :
    Prop where
  wires : body.wires = size.wires
  steps : body.steps = front ++ size.outputs.map (fun w => .fixed .h [w]) ++ back
  below : ∀ s ∈ front, ∀ w ∈ s.wires, w < size.output
  rotations : ∀ s ∈ back, s.operation.MadeOf Gate.IsZRotation
  madeOf : body.MadeOf Gate.IsNumeric

theorem exists_of_forward {o : Operation R} (h : forward size a t0 = .ok o) :
    ∃ body front back, o = .composite body ∧ IsForward size body front back := by
  obtain ⟨⟨b, c₁⟩, hb, h⟩ := bind_eq_ok_iff.1 h
  obtain ⟨⟨c, c₂⟩, hc, h⟩ := bind_eq_ok_iff.1 h
  obtain ⟨⟨workspace, c₃⟩, hm, h⟩ := bind_eq_ok_iff.1 h
  obtain ⟨⟨out, c₄⟩, hl, h⟩ := bind_eq_ok_iff.1 h
  obtain ⟨estimation, hestimation, h⟩ := bind_eq_ok_iff.1 h
  obtain ⟨c₅, h₅, h⟩ := bind_eq_ok_iff.1 h
  obtain ⟨c₆, h₆, h⟩ := bind_eq_ok_iff.1 h
  obtain ⟨c₇, h₇, h⟩ := bind_eq_ok_iff.1 h
  obtain ⟨rotation, hrotation, h⟩ := bind_eq_ok_iff.1 h
  obtain ⟨c₈, h₈, same⟩ := bind_eq_ok_iff.1 h
  obtain rfl := pure_eq_ok_iff.1 same
  have hregisters := isAllocated hb hc hm hl
  -- Of the angles of the seeding layer nothing is used later, so the layer is kept as a list of steps.
  obtain ⟨seeds, h₇, hseeds⟩ : ∃ seeds, c₆.appendAll seeds = .ok c₇ ∧
      ∀ s ∈ seeds, s.operation.MadeOf Gate.IsZRotation := by
    refine ⟨_, h₇, fun s hs => ?_⟩
    obtain ⟨i, _, rfl⟩ := List.mem_map.1 hs
    exact .zRotation _ _
  obtain ⟨hlayout₅, hsteps₅⟩ := Circuit.of_appendAll h₅
  obtain ⟨hlayout₆, hsteps₆⟩ := Circuit.of_appendAll h₆
  obtain ⟨hlayout₇, hsteps₇⟩ := Circuit.of_appendAll h₇
  obtain ⟨hlayout₈, hsteps₈⟩ := Circuit.of_appendAll h₈
  have hlayout : c₈.layout = c₄.layout := by rw [hlayout₈, hlayout₇, hlayout₆, hlayout₅]
  have hout : out.wires = size.outputs := by
    rw [hregisters.output]
    rfl
  have hbelow (w : ℕ) (hw : w ∈ b.wires ∨ w ∈ c.wires ∨ w ∈ workspace.wires) : w < size.output := by
    rw [hregisters.input, hregisters.counting, hregisters.workspace, Register.mem_wires,
      Register.mem_wires, Register.mem_wires] at hw
    unfold Size.output
    dsimp only at hw
    omega
  have hback : ∀ s ∈ seeds ++ [⟨rotation, c.wires ++ workspace.wires ++ out.wires⟩],
      s.operation.MadeOf Gate.IsZRotation := by
    intro s hs
    rcases List.mem_append.1 hs with hs | hs
    · exact hseeds s hs
    · exact List.mem_singleton.1 hs ▸ RotationLadder.madeOf_reciprocal hrotation
  refine ⟨c₈, ⟨estimation, b.wires ++ c.wires⟩ :: workspace.wires.map fun w => .fixed .h [w],
    seeds ++ [⟨rotation, c.wires ++ workspace.wires ++ out.wires⟩], rfl, ?_⟩
  constructor
  · exact (congrArg Layout.wires hlayout).trans hregisters.wires
  · rw [hsteps₈, hsteps₇, hsteps₆, hsteps₅, hregisters.steps, ← hout, List.map_append]
    simp only [List.nil_append, List.cons_append, List.append_assoc]
  · intro s hs w hw
    rcases List.mem_cons.1 hs with rfl | hs
    · exact hbelow w ((List.mem_append.1 hw).imp_right Or.inl)
    · obtain ⟨v, hv, rfl⟩ := List.mem_map.1 hs
      exact hbelow w (.inr (.inr (List.mem_singleton.1 hw ▸ hv)))
  · exact hback
  · have hspread : c₆.MadeOf Gate.IsNumeric := by
      refine (hregisters.madeOf.append (madeOf_eigenvalueEstimation hestimation) h₅).appendAll
        (fun s hs => ?_) h₆
      obtain ⟨w, _, rfl⟩ := List.mem_map.1 hs
      exact .fixed .h [w]
    have hseeded : c₇.MadeOf Gate.IsNumeric :=
      hspread.appendAll (fun s hs => (hseeds s hs).mono fun _ => Gate.IsZRotation.isNumeric) h₇
    refine hseeded.append ?_ h₈
    exact (RotationLadder.madeOf_reciprocal hrotation).mono fun _ => Gate.IsZRotation.isNumeric

namespace IsForward

variable {body : Circuit R} {front back : List (Step (Operation R))}

theorem fits (h : IsForward size body front back) {s : Step (Operation R)} (hs : s ∈ body.steps) :
    s.Fits size.wires := by
  rw [← h.wires]
  exact ((Circuit.wellFormed_iff.1 h.madeOf.wellFormed).2 s hs).1

theorem mem_steps (h : IsForward size body front back) {s : Step (Operation R)}
    (hs : s ∈ front ++ back) : s ∈ body.steps := by
  rw [h.steps]
  rcases List.mem_append.1 hs with hs | hs
  · exact List.mem_append_left _ (List.mem_append_left _ hs)
  · exact List.mem_append_right _ hs

theorem not_mem_outputs (h : IsForward size body front back) {s : Step (Operation R)} (hs : s ∈ front)
    {w : ℕ} (hw : w ∈ size.outputs) : w ∉ s.wires :=
  fun hmem => absurd (h.below s hs w hmem) (not_lt.2 (Size.mem_outputs.1 hw).1)

end IsForward

structure IsSolver (size : Size) (theta : R) (c : Circuit R) (block inverse : Operation R)
    (rotations : List (Step (Operation R))) : Prop where
  wires : c.wires = size.wires + 1
  registers : c.layout.registers = [⟨"b", size.n, 0⟩, ⟨"c", size.t, size.n⟩,
    ⟨"m", size.m, size.n + size.t⟩, ⟨"l", size.l, size.output⟩, ⟨"anc", 1, size.wires⟩]
  steps : c.steps =
    [⟨block, List.range size.wires⟩] ++ rotations ++ [⟨inverse, List.range size.wires⟩]
  rotations : List.Forall₂ (fun (k : ℕ) (s : Step (Operation R)) =>
    s.wires = [size.output + k, size.wires] ∧
      (Operation.primitive (Gate.cry (.value theta))).powerOfTwo k = .ok s.operation)
    (List.range size.l) rotations
  madeOf : c.MadeOf Gate.IsNumeric

theorem range_wires (size : Size) :
    List.range' 0 size.n ++ List.range' size.n size.t ++ List.range' (size.n + size.t) size.m ++
      size.outputs = List.range size.wires := by
  have hn : List.range' size.n size.t = List.range' (0 + size.n) size.t := by rw [Nat.zero_add]
  have ht : List.range' (size.n + size.t) size.m = List.range' (0 + (size.n + size.t)) size.m := by
    rw [Nat.zero_add]
  have hm : size.outputs = List.range' (0 + (size.n + size.t + size.m)) size.l := by
    rw [Nat.zero_add]
    rfl
  rw [hn, List.range'_append_1, ht, List.range'_append_1, hm, List.range'_append_1, List.range_eq_range']
  rfl

theorem exists_of_solver {c : Circuit R} (h : solver a t0 theta size = .ok c) :
    ∃ block inverse rotations, forward size a t0 = .ok block ∧ block.inverse = .ok inverse ∧
      IsSolver size theta c block inverse rotations := by
  obtain ⟨block, hblock, h⟩ := bind_eq_ok_iff.1 h
  obtain ⟨⟨b, c₁⟩, hb, h⟩ := bind_eq_ok_iff.1 h
  obtain ⟨⟨counting, c₂⟩, hc, h⟩ := bind_eq_ok_iff.1 h
  obtain ⟨⟨workspace, c₃⟩, hm, h⟩ := bind_eq_ok_iff.1 h
  obtain ⟨⟨out, c₄⟩, hl, h⟩ := bind_eq_ok_iff.1 h
  obtain ⟨⟨ancilla, c₅⟩, h₅, h⟩ := bind_eq_ok_iff.1 h
  obtain ⟨c₆, h₆, h⟩ := bind_eq_ok_iff.1 h
  obtain ⟨rotations, hrotations, h⟩ := bind_eq_ok_iff.1 h
  obtain ⟨c₇, h₇, h⟩ := bind_eq_ok_iff.1 h
  obtain ⟨inverse, hinverse, h₈⟩ := bind_eq_ok_iff.1 h
  refine ⟨block, inverse, rotations, hblock, hinverse, ?_⟩
  have hshared := isAllocated hb hc hm hl
  obtain ⟨hancilla, hwires₅, hregisters₅, hsteps₅⟩ := Circuit.of_addRegister h₅
  obtain ⟨hlayout₆, hsteps₆⟩ := Circuit.of_appendAll h₆
  obtain ⟨hlayout₇, hsteps₇⟩ := Circuit.of_appendAll h₇
  obtain ⟨hlayout₈, hsteps₈⟩ := Circuit.of_appendAll h₈
  rw [hshared.wires] at hancilla hwires₅
  have hlayout : c.layout = c₅.layout := by rw [hlayout₈, hlayout₇, hlayout₆]
  have hall : b.wires ++ counting.wires ++ workspace.wires ++ out.wires = List.range size.wires := by
    rw [hshared.input, hshared.counting, hshared.workspace, hshared.output, ← range_wires]
    rfl
  have hkicks : List.Forall₂ (fun (k : ℕ) (s : Step (Operation R)) =>
      s.wires = [size.output + k, size.wires] ∧
        (Operation.primitive (Gate.cry (.value theta))).powerOfTwo k = .ok s.operation)
      (List.range size.l) rotations := by
    refine (mapM_eq_ok_iff.1 hrotations).imp fun k s hs => ?_
    obtain ⟨rotation, hrotation, same⟩ := bind_eq_ok_iff.1 hs
    obtain rfl := pure_eq_ok_iff.1 same
    refine ⟨?_, hrotation⟩
    rw [hshared.output, hancilla]
    rfl
  obtain ⟨body, _, _, rfl, hforward⟩ := exists_of_forward hblock
  constructor
  · exact (congrArg Layout.wires hlayout).trans hwires₅
  · rw [hlayout, hregisters₅, hshared.registers, hshared.input, hshared.counting, hshared.workspace,
      hshared.output, hancilla]
    rfl
  · rw [hsteps₈, hsteps₇, hsteps₆, hsteps₅, hshared.steps, hall]
    rfl
  · exact hkicks
  · have hblocks := (hshared.madeOf.addRegister h₅).append hforward.madeOf h₆
    refine Circuit.MadeOf.append (hblocks.appendAll (fun s hs => ?_) h₇) ?_ h₈
    · obtain ⟨k, _, _, hs⟩ := exists_of_forall₂_right hkicks s hs
      exact (Operation.MadeOf.angle .cry theta []).powerOfTwo hs
    · exact hforward.madeOf.inverse hinverse

theorem idxOf?_range' {n k i : ℕ} (h : i < k) : (List.range' n k).idxOf? (n + i) = some i := by
  rw [List.idxOf?_eq_some_iff]
  have hlen : i < (List.range' n k).length := by rwa [List.length_range']
  refine ⟨hlen, ?_, fun j hj => ?_⟩
  · rw [List.getElem_range', Nat.one_mul]
  · rw [List.getElem_range', Nat.one_mul]
    omega

theorem solution_eq_slice {c : Circuit R} {s : State R} {b ancilla : Register} {position : ℕ}
    (hb : c.layout.find? "b" = some b) (hancilla : c.layout.find? "anc" = some ancilla)
    (hposition : (others c.wires b.wires).idxOf? (ancilla.wire 0) = some position) :
    solution c s = .ok (s.slice b.wires (1 <<< position)) := by
  refine bind_eq_ok_iff.2 ⟨b, by simp only [hb], bind_eq_ok_iff.2 ⟨ancilla, by simp only [hancilla], ?_⟩⟩
  simp only [hposition]
  rfl

theorem solution_eq {c : Circuit R} {s : State R} {n k i : ℕ}
    (hb : c.layout.find? "b" = some ⟨"b", n, 0⟩) (hancilla : c.layout.find? "anc" = some ⟨"anc", 1, n + i⟩)
    (hwires : c.wires = n + k) (hi : i < k) (hs : s.qubits = n + k) :
    solution c s = .ok ((indices n).map fun j => s.amp (j ||| 2 ^ (n + i))) := by
  have hposition : (others c.wires (Register.wires ⟨"b", n, 0⟩)).idxOf?
      (Register.wire ⟨"anc", 1, n + i⟩ 0) = some i := by
    change (others c.wires (List.range' 0 n)).idxOf? (n + i) = some i
    rw [hwires, others_range', idxOf?_range' hi]
  have hindex (j : ℕ) (hj : j < 2 ^ n) :
      State.sliceIndex s.qubits (List.range' 0 n) (1 <<< i) j = j ||| 2 ^ (n + i) := by
    apply Nat.eq_of_testBit_eq
    intro w
    rw [State.sliceIndex, hs, others_range', Nat.testBit_or, testBit_scatter_range', testBit_scatter_range',
      Nat.testBit_or, Nat.one_shiftLeft, Nat.testBit_two_pow, Nat.testBit_two_pow, Nat.sub_zero]
    by_cases hw : w < n
    · have hne : ¬ n + i = w := by omega
      have hout : ¬ n ≤ w := by omega
      simp [hw, hne, hout]
    · have hbit : j.testBit w = false :=
        Nat.testBit_lt_two_pow (hj.trans_le (Nat.pow_le_pow_right Nat.two_pos (not_lt.1 hw)))
      have hiff : (n ≤ w ∧ w < n + k) ∧ i = w - n ↔ n + i = w := by omega
      rw [hbit, Bool.and_false, Bool.or_false, Bool.false_or, ← Bool.decide_and, decide_eq_decide]
      exact hiff
  rw [solution_eq_slice hb hancilla hposition, State.slice, Register.wires, List.length_range']
  exact congrArg Except.ok (List.map_congr_left fun j hj => congrArg s.amp (hindex j (mem_indices.1 hj)))

end QuantumCircuits.LinearSystem
