import Mathlib
import QuantumCircuits.Proofs.Simulation.Registers
import QuantumCircuits.Proofs.Simulation.Standalone

/-! The rotation that three levels of ladders build. Each level is diagonal, so that the angles of its
steps add up: over the workspace to a signed binary fraction, over the counting and the output bits to
the product of what both registers read. -/

noncomputable section
namespace QuantumCircuits
open QuantumCircuits.Basis Operator Operation
open scoped Matrix

namespace RotationLadder

section Build

variable {R : Type} [Scalar R] {t m l k : ℕ}

def kicksBody (m : ℕ) (c : R) : Circuit R :=
  ⟨"ladder", ⟨[⟨"m", m, 0⟩], m⟩, (List.range m).map fun (i : ℕ) =>
    .gate (.rz (.value (c / Scalar.twoPower ((i : ℤ) + 1)))) [Register.wire ⟨"m", m, 0⟩ i]⟩

theorem kicks_eq (hm : 0 < m) (c : R) : kicks m c = .ok (.composite (kicksBody m c)) := by
  refine bind_eq_ok_iff.2 ⟨_, Circuit.addRegister_empty hm "ladder" "m", bind_eq_ok_iff.2 ⟨kicksBody m c, ?_, rfl⟩⟩
  refine Circuit.appendAll_eq_ok_iff.2 ⟨fun s hs => ?_, rfl⟩
  obtain ⟨i, hi, rfl⟩ := List.mem_map.1 hs
  refine selects_singleton ?_
  rw [Register.wire, Nat.zero_add]
  exact List.mem_range.1 hi

def layout (t m l : ℕ) : Layout := ⟨[⟨"c", t, 0⟩, ⟨"m", m, t⟩, ⟨"l", l, t + m⟩], t + m + l⟩

def bankStep (t m l k : ℕ) (c : R) (i : ℕ) : Step (Operation R) :=
  ⟨.controlled (.composite (kicksBody m c)) (.allSet 2), Register.wire ⟨"l", l, t + m⟩ k ::
    Register.wire ⟨"c", t, 0⟩ i :: Register.wires ⟨"m", m, t⟩⟩

def bankBody (t m l k : ℕ) (c : ℕ → R) : Circuit R :=
  ⟨"controlled_ladders", layout t m l, (List.range t).map fun i => bankStep t m l k (c i) i⟩

def scales (t m l : ℕ) (t0 : R) (k i : ℕ) : R := scale t0 ((t : ℤ) - i + ((l : ℤ) - k) - m)

def reciprocalBody (t m l : ℕ) (t0 : R) : Circuit R :=
  ⟨"reciprocal_rotation", layout t m l, (List.range l).map fun k =>
    ⟨.composite (bankBody t m l k (scales t m l t0 k)), List.range (t + m + l)⟩⟩

omit [Scalar R] in
theorem addRegisters_eq (ht : 0 < t) (hm : 0 < m) (hl : 0 < l) (name : String) :
    ∃ c₁ c₂ : Circuit R, (Circuit.empty name).addRegister "c" t = .ok (⟨"c", t, 0⟩, c₁) ∧
      c₁.addRegister "m" m = .ok (⟨"m", m, t⟩, c₂) ∧
      c₂.addRegister "l" l = .ok (⟨"l", l, t + m⟩, ⟨name, layout t m l, []⟩) :=
  ⟨_, _, Circuit.addRegister_empty ht name "c", Circuit.addRegister_eq_ok_iff.2 ⟨hm, rfl, rfl⟩,
    Circuit.addRegister_eq_ok_iff.2 ⟨hl, rfl, rfl⟩⟩

theorem isUnitary_kicksBody (c : R) : (Operation.composite (kicksBody m c)).isUnitary = true := by
  rw [isUnitary_composite, List.all_eq_true]
  intro s hs
  obtain ⟨i, _, rfl⟩ := List.mem_map.1 hs
  rfl

theorem fits_bankStep (hk : k < l) {i : ℕ} (hi : i < t) (c : R) : (bankStep t m l k c i).Fits (t + m + l) := by
  refine ⟨?_, ?_, ?_⟩
  · change (List.range' t m).length + 2 = m + 2
    rw [List.length_range']
  · refine List.nodup_cons.2 ⟨?_, List.nodup_cons.2 ⟨?_, List.nodup_range'⟩⟩
    · simp only [Register.wire, List.mem_cons, Register.mem_wires]
      omega
    · simp only [Register.wire, Register.mem_wires]
      omega
  · intro w hw
    simp only [bankStep, Register.wire, List.mem_cons, Register.mem_wires] at hw
    omega

theorem bank_eq (ht : 0 < t) (hm : 0 < m) (hl : 0 < l) (hk : k < l) (c : ℕ → R) :
    bank t m l k c = .ok (.composite (bankBody t m l k c)) := by
  obtain ⟨c₁, c₂, h₁, h₂, h₃⟩ := addRegisters_eq (R := R) ht hm hl "controlled_ladders"
  have hsteps : ((List.range t).mapM fun i => do
      let controlled ← (← kicks m (c i)).control 2 (.allSet 2)
      return ⟨controlled, Register.wire ⟨"l", l, t + m⟩ k :: Register.wire ⟨"c", t, 0⟩ i ::
        Register.wires ⟨"m", m, t⟩⟩ : Except Fault (List (Step (Operation R)))) =
      .ok ((List.range t).map fun i => bankStep t m l k (c i) i) := by
    rw [mapM_eq_ok_iff, List.forall₂_map_right_iff, List.forall₂_same]
    intro i _
    have hcontrol : (Operation.composite (kicksBody m (c i))).control 2 (.allSet 2) =
        .ok (.controlled (.composite (kicksBody m (c i))) (.allSet 2)) := if_pos (isUnitary_kicksBody (c i))
    exact bind_eq_ok_iff.2 ⟨_, kicks_eq hm (c i), bind_eq_ok_iff.2 ⟨_, hcontrol, rfl⟩⟩
  refine bind_eq_ok_iff.2 ⟨_, h₁, bind_eq_ok_iff.2 ⟨_, h₂, bind_eq_ok_iff.2 ⟨_, h₃, ?_⟩⟩⟩
  refine bind_eq_ok_iff.2 ⟨_, hsteps, bind_eq_ok_iff.2 ⟨bankBody t m l k c, ?_, rfl⟩⟩
  refine Circuit.appendAll_eq_ok_iff.2 ⟨fun s hs => ?_, rfl⟩
  obtain ⟨i, hi, rfl⟩ := List.mem_map.1 hs
  exact fits_bankStep hk (List.mem_range.1 hi) (c i)

theorem allWires_eq (t m l : ℕ) : Register.wires ⟨"c", t, 0⟩ ++ Register.wires ⟨"m", m, t⟩ ++
    Register.wires ⟨"l", l, t + m⟩ = List.range (t + m + l) := by
  have hm : List.range' t m = List.range' (0 + t) m := by rw [Nat.zero_add]
  have hl : List.range' (t + m) l = List.range' (0 + (t + m)) l := by rw [Nat.zero_add]
  change List.range' 0 t ++ List.range' t m ++ List.range' (t + m) l = _
  rw [hm, List.range'_append_1, hl, List.range'_append_1, List.range_eq_range']

theorem reciprocal_eq (ht : 0 < t) (hm : 0 < m) (hl : 0 < l) (t0 : R) :
    reciprocal t m l t0 = .ok (.composite (reciprocalBody t m l t0)) := by
  obtain ⟨c₁, c₂, h₁, h₂, h₃⟩ := addRegisters_eq (R := R) ht hm hl "reciprocal_rotation"
  have hsteps : ((List.range l).mapM fun k => do
      let bank ← bank t m l k (scales t m l t0 k)
      return ⟨bank, Register.wires ⟨"c", t, 0⟩ ++ Register.wires ⟨"m", m, t⟩ ++
        Register.wires ⟨"l", l, t + m⟩⟩ : Except Fault (List (Step (Operation R)))) =
      .ok (reciprocalBody t m l t0).steps := by
    rw [mapM_eq_ok_iff, reciprocalBody, List.forall₂_map_right_iff, List.forall₂_same]
    intro k hk
    rw [allWires_eq]
    exact bind_eq_ok_iff.2 ⟨_, bank_eq ht hm hl (List.mem_range.1 hk) _, rfl⟩
  refine bind_eq_ok_iff.2 ⟨_, h₁, bind_eq_ok_iff.2 ⟨_, h₂, bind_eq_ok_iff.2 ⟨_, h₃, ?_⟩⟩⟩
  refine bind_eq_ok_iff.2 ⟨_, hsteps, bind_eq_ok_iff.2 ⟨reciprocalBody t m l t0, ?_, rfl⟩⟩
  refine Circuit.appendAll_eq_ok_iff.2 ⟨fun s hs => ?_, rfl⟩
  obtain ⟨k, _, rfl⟩ := List.mem_map.1 hs
  exact Selects.range (t + m + l)

theorem bank_congr {c d : ℕ → R} (h : ∀ i < t, c i = d i) : bank t m l k c = bank t m l k d := by
  refine bind_congr fun (counting, _) => bind_congr fun (workspace, _) => bind_congr fun (out, circuit) => ?_
  refine congrArg (· >>= _) (mapM_congr fun i hi => ?_)
  rw [h i (List.mem_range.1 hi)]

omit [Scalar R] in
theorem stack_congr {f g : ℕ → Except Fault (Operation R)} (h : ∀ k < l, f k = g k) :
    stack t m l f = stack t m l g := by
  refine bind_congr fun (counting, _) => bind_congr fun (workspace, _) => bind_congr fun (out, circuit) => ?_
  refine congrArg (· >>= _) (mapM_congr fun k hk => ?_)
  rw [h k (List.mem_range.1 hk)]

/-- For sizes that are added up within 32 bits, the banks are those that a caller gets. -/
theorem reciprocal_eq_stack (above : 2 * (t + l) < Int32.size) (below : 2 * m < Int32.size) (t0 : R) :
    reciprocal t m l t0 = stack t m l fun k => controlledLadders t m l k t0 := by
  refine stack_congr fun k hk => bank_congr fun i hi => ?_
  rw [coefficient_eq_scale t0 (by omega) below, Nat.cast_sub hi.le, Nat.cast_sub hk.le]

end Build

variable {t m l : ℕ}

/-- The signed binary fraction that the bits of the workspace stand for. -/
def fraction (m M : ℕ) : ℝ :=
  ∑ j ∈ Finset.range m, ((2 : ℕ) * ((M.testBit j).toNat : ℝ) - 1) / (2 ^ (j + 1) : ℕ)

theorem fraction_eq (m M : ℕ) :
    fraction m M = ∑ j ∈ Finset.range m, (2 * ((M.testBit j).toNat : ℝ) - 1) / 2 ^ (j + 1) := by
  rw [fraction]
  push_cast
  rfl

/-- The angle by which the ladders of all banks turn a basis state with the given readings. -/
def angle (t m l : ℕ) (t0 : ℝ) (C M L : ℕ) : ℝ :=
  -(t0 / (2 : ℕ)) * ((2 : ℕ) : ℝ) ^ ((m : ℤ) - t - l) * C * L * fraction m M

theorem angle_eq (t m l : ℕ) (t0 : ℝ) (C M L : ℕ) :
    angle t m l t0 C M L = -(1 / 2) * t0 * 2 ^ ((m : ℤ) - t - l) * C * L * fraction m M := by
  rw [angle]
  push_cast
  ring

theorem sum_testBit (x k : ℕ) : ∑ i ∈ Finset.range k, ((x.testBit i).toNat : ℝ) * 2 ^ i = (x % 2 ^ k : ℕ) := by
  induction k with
  | zero => simp [Nat.mod_one]
  | succ k ih =>
    rw [Finset.sum_range_succ, ih, Nat.toNat_testBit, Nat.mod_pow_succ]
    push_cast
    ring

section Angles

variable [EigenSolver ℝ]

theorem means_rz (θ : ℝ) : (Operation.primitive (.rz (.value θ))).Means
    (phased 1 fun b => (2 * ((b.testBit 0).toNat : ℝ) - 1) * (θ / 2)) := by
  rw [← toMatrix_rotationZ_eq_phased]
  exact .uncontrolled rfl rfl rfl

theorem means_kicks (m : ℕ) (c : ℝ) :
    (Operation.composite (kicksBody m c)).Means (phased m fun M => c / 2 * fraction m M) := by
  refine ⟨rfl, heq_of_eq ?_⟩
  change stepsMeaning m ((List.range m).map _) = _
  rw [stepsMeaning_phased (f := fun j M => (2 * ((M.testBit j).toNat : ℝ) - 1) * (c / 2 ^ (j + 1) / 2))]
  · refine phased_congr fun M _ => ?_
    rw [fraction_eq, Finset.mul_sum]
    exact Finset.sum_congr rfl fun j _ => by ring
  · intro j hj
    have hwire : Register.wire ⟨"m", m, 0⟩ j = j := Nat.zero_add j
    have hpower : (Scalar.twoPower ((j : ℤ) + 1) : ℝ) = 2 ^ (j + 1) := by
      rw [Scalar.twoPower_real, ← zpow_natCast]
      rfl
    rw [hwire, hpower]
    refine ((means_rz (c / 2 ^ (j + 1))).placed_eq [] [j]).trans ?_
    rw [placed_phased (selects_singleton hj)]
    refine phased_congr fun M _ => ?_
    have hbit : (gather M [j]).testBit 0 = M.testBit j := testBit_gather M [j] 0
    rw [hbit]
    exact if_pos rfl

theorem placed_bankStep {k i : ℕ} (hk : k < l) (hi : i < t) (c : ℝ) :
    (placed [] (bankStep t m l k c i).wires (bankStep t m l k c i).operation.meaning : Operator (t + m + l)) =
      phased (t + m + l) fun x => ((x.testBit (t + m + k)).toNat : ℝ) * (x.testBit i).toNat *
        (c / 2 * fraction m (gather x (List.range' t m))) := by
  have hfits := fits_bankStep (m := m) hk hi c
  have hmeans := (means_kicks m c).controlled (.allSet 2)
  have hwires : Selects (t + m + l) (m + 2) (bankStep t m l k c i).wires := hfits
  have hworkspace : Selects (t + m + l) m (List.range' t m) :=
    (Selects.range' rfl).mono (Nat.le_add_right (t + m) l)
  have hleading : (placed [] (bankStep t m l k c i).wires (placed [(0, true), (1, true)] (List.range' 2 m)
      (phased m fun M => c / 2 * fraction m M) : Operator (m + 2)) : Operator (t + m + l)) =
        placed [(t + m + k, true), (0 + i, true)] (List.range' t m) (phased m fun M => c / 2 * fraction m M) :=
    placed_leading hwires (Nat.add_comm 2 m) (by simp) false _
  refine (hmeans.placed_eq [] _).trans (hleading.trans ?_)
  rw [placed_phased hworkspace, Nat.zero_add]
  refine phased_congr fun x _ => ?_
  cases hout : x.testBit (t + m + k) <;> cases hin : x.testBit i <;> simp [holds, hout, hin]

theorem means_bank {k : ℕ} (hk : k < l) (c : ℕ → ℝ) :
    (Operation.composite (bankBody t m l k c)).Means (phased (t + m + l) fun x =>
      ∑ i ∈ Finset.range t, ((x.testBit (t + m + k)).toNat : ℝ) * (x.testBit i).toNat *
        (c i / 2 * fraction m (gather x (List.range' t m)))) :=
  ⟨rfl, heq_of_eq (stepsMeaning_phased fun i hi => placed_bankStep hk hi (c i))⟩

omit [EigenSolver ℝ] in
theorem scales_eq (t m l : ℕ) (t0 : ℝ) (k i : ℕ) :
    scales t m l t0 k i = -t0 * 2 ^ ((m : ℤ) - t - l) * 2 ^ i * 2 ^ k := by
  have hexponent : -((t : ℤ) - i + ((l : ℤ) - k) - m) = (m : ℤ) - t - l + i + k := by ring
  rw [scales, scale, Scalar.twoPower_real, div_eq_mul_inv, ← zpow_neg, hexponent, zpow_add₀ two_ne_zero,
    zpow_add₀ two_ne_zero, zpow_natCast, zpow_natCast]
  ring

/-- The banks add up to one rotation by the product of the counting and the output register. -/
theorem means_reciprocal (t m l : ℕ) (t0 : ℝ) :
    (Operation.composite (reciprocalBody t m l t0)).Means (phased (t + m + l) fun x =>
      angle t m l t0 (x % 2 ^ t) (gather x (List.range' t m)) (x / 2 ^ (t + m) % 2 ^ l)) := by
  refine ⟨rfl, heq_of_eq ?_⟩
  change stepsMeaning (t + m + l) ((List.range l).map _) = _
  rw [stepsMeaning_phased (f := fun k x => ∑ i ∈ Finset.range t, ((x.testBit (t + m + k)).toNat : ℝ) *
    (x.testBit i).toNat * (scales t m l t0 k i / 2 * fraction m (gather x (List.range' t m))))]
  · refine phased_congr fun x _ => ?_
    have hcounting := sum_testBit x t
    have hout := sum_testBit (x / 2 ^ (t + m)) l
    simp only [Nat.testBit_div_two_pow, Nat.add_comm _ (t + m)] at hout
    rw [angle_eq, ← hcounting, ← hout, mul_assoc _ (Finset.sum _ _) (Finset.sum _ _), mul_comm (Finset.sum _ _),
      Finset.sum_mul_sum]
    simp only [scales_eq, Finset.mul_sum, Finset.sum_mul]
    refine Finset.sum_congr rfl fun k _ => Finset.sum_congr rfl fun i _ => ?_
    ring
  · intro k hk
    refine ((means_bank hk (scales t m l t0 k)).placed_eq [] _).trans ?_
    exact placed_range _

end Angles

theorem readings {C M L : ℕ} (hC : C < 2 ^ t) (hM : M < 2 ^ m) (hL : L < 2 ^ l) :
    (C + 2 ^ t * M + 2 ^ (t + m) * L) % 2 ^ t = C ∧
      gather (C + 2 ^ t * M + 2 ^ (t + m) * L) (List.range' t m) = M ∧
      (C + 2 ^ t * M + 2 ^ (t + m) * L) / 2 ^ (t + m) % 2 ^ l = L := by
  have hlow := split_lt hC hM
  refine ⟨?_, ?_, ?_⟩
  · rw [pow_add, mul_assoc, add_assoc, ← mul_add, Nat.add_mul_mod_self_left, Nat.mod_eq_of_lt hC]
  · apply Nat.eq_of_testBit_eq
    intro j
    rw [testBit_gather]
    by_cases hj : j < m
    · have hlen : j < (List.range' t m).length := by rwa [List.length_range']
      have hbelow : t + 1 * j < t + m := by omega
      have habove : ¬ t + 1 * j < t := by omega
      have hplace : t + 1 * j - t = j := by omega
      rw [List.getElem?_eq_getElem hlen, List.getElem_range', Option.map_some, Option.getD_some,
        testBit_split hlow, if_pos hbelow, testBit_split hC, if_neg habove, hplace]
    · have hlen : (List.range' t m).length ≤ j := by
        rw [List.length_range']
        exact not_lt.1 hj
      rw [List.getElem?_eq_none hlen]
      exact (Nat.testBit_lt_two_pow (hM.trans_le (Nat.pow_le_pow_right Nat.two_pos (not_lt.1 hj)))).symm
  · rw [Nat.add_mul_div_left _ _ (Nat.two_pow_pos _), Nat.div_eq_of_lt hlow, Nat.zero_add, Nat.mod_eq_of_lt hL]

/-- The reciprocal rotation multiplies every basis state by a phase and does nothing else. Its angle is
proportional to the product of what the counting and the output register read. -/
theorem run_reciprocal [EigenSolver ℝ] (ht : 1 ≤ t) (hm : 1 ≤ m) (hl : 1 ≤ l) (t0 : ℝ) :
    ∃ o, reciprocal t m l t0 = .ok o ∧
      (2 * (t + l) < Int32.size → 2 * m < Int32.size →
        (stack t m l fun k => controlledLadders t m l k t0) = .ok o) ∧
      o.arity = t + m + l ∧ ∀ s : State ℝ, s.qubits = t + m + l →
      ∃ r, o.run s = .ok r ∧ r.qubits = t + m + l ∧ ∀ C < 2 ^ t, ∀ M < 2 ^ m, ∀ L < 2 ^ l,
        (r.amp (C + 2 ^ t * M + 2 ^ (t + m) * L)).toComplex =
          Complex.exp (-(Complex.I / 2) * t0 * 2 ^ ((m : ℤ) - t - l) * C * L *
            ∑ j ∈ Finset.range m, (2 * ((M.testBit j).toNat : ℂ) - 1) / 2 ^ (j + 1)) *
              (s.amp (C + 2 ^ t * M + 2 ^ (t + m) * L)).toComplex := by
  have hreciprocal := reciprocal_eq ht hm hl t0
  have hmade : (Operation.composite (reciprocalBody t m l t0)).MadeOf fun g => g.IsNumeric ∧ ¬ g.IsEvolution := by
    refine (madeOf_reciprocal hreciprocal).mono fun g hg => ⟨hg.isNumeric, ?_⟩
    obtain ⟨x, rfl⟩ := hg
    exact not_false
  have hpos : 0 < (Operation.composite (reciprocalBody t m l t0)).arity := Nat.add_pos_right _ hl
  refine ⟨_, hreciprocal, fun above below => (reciprocal_eq_stack above below t0).symm.trans hreciprocal, rfl,
    fun s hs => ⟨_, hmade.run_eq hpos (@means_reciprocal .spectral t m l t0) hs, rfl, ?_⟩⟩
  intro C hC M hM L hL
  have hindex : C + 2 ^ t * M + 2 ^ (t + m) * L < 2 ^ (t + m + l) := split_lt (split_lt hC hM) hL
  obtain ⟨hcounting, hworkspace, hout⟩ := readings hC hM hL
  rw [State.amp_ofVector _ ⟨_, hindex⟩, Cx.toComplex_ofComplex, phased_mulVec]
  dsimp only
  rw [hcounting, hworkspace, hout, angle_eq, fraction_eq]
  congr 2
  push_cast
  ring

attribute [local instance] EigenSolver.spectral in
theorem run_reciprocal_small :
    1 ≤ 2 ∧ 1 ≤ 3 ∧ ∃ o : Operation ℝ, reciprocal 2 3 2 (2 * Real.pi) = .ok o ∧
      (2 * (2 + 2) < Int32.size → 2 * 3 < Int32.size →
        (stack 2 3 2 fun k => controlledLadders 2 3 2 k (2 * Real.pi)) = .ok o) ∧ o.arity = 7 ∧
      ∀ s : State ℝ, s.qubits = 7 →
        ∃ r, o.run s = .ok r ∧ r.qubits = 7 ∧ ∀ C < 2 ^ 2, ∀ M < 2 ^ 3, ∀ L < 2 ^ 2,
          (r.amp (C + 2 ^ 2 * M + 2 ^ (2 + 3) * L)).toComplex =
            Complex.exp (-(Complex.I / 2) * ((2 * Real.pi : ℝ) : ℂ) * 2 ^ (((3 : ℕ) : ℤ) - (2 : ℕ) - (2 : ℕ)) * C * L *
              ∑ j ∈ Finset.range 3, (2 * ((M.testBit j).toNat : ℂ) - 1) / 2 ^ (j + 1)) *
                (s.amp (C + 2 ^ 2 * M + 2 ^ (2 + 3) * L)).toComplex :=
  ⟨by decide, by decide, run_reciprocal (by decide) (by decide) (by decide) (2 * Real.pi)⟩

end RotationLadder
end QuantumCircuits
end
