import Mathlib
import QuantumCircuits.Proofs.Algorithm.CodeTables

/-! Codes that correct channels. Where the tables of a code pass their check, a channel that combines errors
that they correct leaves the code register in its input state, next to a state of the syndrome register. -/

noncomputable section
namespace QuantumCircuits
open Matrix QuantumCircuits.Basis Operator PauliString

def ErrorCorrection.logical (e : ErrorCorrection ℝ) (α β : Cx ℝ) : State ℝ :=
  .ofFn e.wires fun i => if i = 0 then α else if i = 2 ^ e.logicalWire then β else 0

/-- With the channel inside, the code register ends in its input state, next to some state of the syndrome
register, and the fidelity is one. -/
def ErrorCorrection.Restores [EigenSolver ℝ] (e : ErrorCorrection ℝ) (channel : Circuit ℝ) (α β : Cx ℝ) : Prop :=
  ∃ c output rest, e.withChannel channel = .ok c ∧ c.statevector (e.logical α β) = .ok output ∧
    rest.IsNormalised e.syndrome.size ∧ output.IsProduct e.code.size e.syndrome.size (e.logical α β) rest ∧
      e.logicalFidelity (e.logical α β) output = .ok 1

namespace CodeTables

variable {T : CodeTables}

section Logical

variable (α β : Cx ℝ)

theorem amp_logical {i : ℕ} (hi : i < 2 ^ T.wires) : ((T.assembled ℝ).logical α β).amp i =
    if i = 0 then α else if i = 2 ^ T.logicalWire then β else 0 := State.amp_ofFn _ _ hi

theorem isLogical_logical : T.IsLogical (((T.assembled ℝ).logical α β).vector T.wires) := by
  intro i hi
  by_contra hne
  obtain ⟨hzero, hlogical⟩ := not_or.1 hne
  rw [State.vector, amp_logical α β i.isLt, if_neg hzero, if_neg hlogical] at hi
  exact hi rfl

theorem Sound.isProduct_logical (h : T.Sound) : ((T.assembled ℝ).logical α β).IsProduct T.code T.syndrome
    ((T.assembled ℝ).logical α β) (.zero T.syndrome) := by
  intro i hi j hj
  have hlogical : 2 ^ T.logicalWire < 2 ^ T.code := Nat.pow_lt_pow_right Nat.one_lt_two h.logical
  apply Cx.toComplex_injective
  rw [Cx.toComplex_mul, State.zero, State.basis, State.amp_ofFn _ _ hj]
  by_cases hzero : j = 0
  · rw [if_pos hzero, hzero, Nat.mul_zero, Nat.add_zero, Cx.toComplex_one, mul_one]
  · have hlarge : 2 ^ T.code ≤ i + 2 ^ T.code * j :=
      (Nat.le_mul_of_pos_right _ (Nat.pos_of_ne_zero hzero)).trans (Nat.le_add_left _ _)
    have hpos := Nat.two_pow_pos T.logicalWire
    rw [if_neg hzero, Cx.toComplex_zero, mul_zero, amp_logical α β (split_lt hi hj), if_neg (by omega), if_neg (by omega)]
    rfl

theorem Sound.sum_normSq_logical (h : T.Sound) :
    ∑ i : Fin (2 ^ T.code), (((T.assembled ℝ).logical α β).amp i).normSq = α.normSq + β.normSq := by
  have hlogical : 2 ^ T.logicalWire < 2 ^ T.code := Nat.pow_lt_pow_right Nat.one_lt_two h.logical
  have hpos := Nat.two_pow_pos T.logicalWire
  have hamp (i : ℕ) (hi : i < 2 ^ T.code) := amp_logical (T := T) α β
    (hi.trans_le (Nat.pow_le_pow_right Nat.two_pos (Nat.le_add_right T.code T.syndrome)))
  rw [Fintype.sum_eq_add ⟨0, Nat.two_pow_pos _⟩ ⟨2 ^ T.logicalWire, hlogical⟩]
  · rw [hamp 0 (Nat.two_pow_pos _), hamp _ hlogical, if_pos rfl, if_neg hpos.ne', if_pos rfl]
  · exact fun same => hpos.ne (congrArg Fin.val same)
  · rintro i ⟨hzero, hother⟩
    have hne : i.val ≠ 0 := fun same => hzero (Fin.ext same)
    have hne' : i.val ≠ 2 ^ T.logicalWire := fun same => hother (Fin.ext same)
    rw [hamp i i.isLt, if_neg hne, if_neg hne', ← Cx.normSq_toComplex, Cx.toComplex_zero, Complex.normSq_zero]

theorem Sound.isNormalised_logical (h : T.Sound) (hone : α.normSq + β.normSq = 1) :
    ((T.assembled ℝ).logical α β).IsNormalised T.wires := by
  refine ⟨rfl, ?_⟩
  rw [(h.isProduct_logical α β).mass_vector, h.sum_normSq_logical, hone, (State.isNormalised_zero T.syndrome).mass, one_mul]

end Logical

theorem Sound.reading_mulVec (h : T.Sound) {v : Fin (2 ^ T.wires) → ℂ} (hv : T.IsLogical v) {i j m : ℕ}
    (hi : i < 2 ^ T.code) (hj : j < 2 ^ T.syndrome) (hm : m < 2 ^ T.syndrome) :
    ((T.reading m).operator *ᵥ v) ⟨i + 2 ^ T.code * j, split_lt hi hj⟩ = if j = m then v (state T.wires i) else 0 := by
  rw [reading, operator_flips_mulVec, flipped, split_xor hi]
  split
  · next hjm => rw [hjm, Nat.xor_self, Nat.mul_zero, Nat.add_zero]
  · next hjm =>
    have hlogical : 2 ^ T.logicalWire < 2 ^ T.code := Nat.pow_lt_pow_right Nat.one_lt_two h.logical
    have hpos : 1 ≤ j ^^^ m := Nat.one_le_iff_ne_zero.2 fun hzero => hjm (Nat.xor_eq_zero_iff.1 hzero)
    have hlarge : 2 ^ T.code ≤ i + 2 ^ T.code * (j ^^^ m) :=
      (Nat.le_mul_of_pos_right _ hpos).trans (Nat.le_add_left _ _)
    have hvalue : (state T.wires (i + 2 ^ T.code * (j ^^^ m))).val = i + 2 ^ T.code * (j ^^^ m) :=
      val_state_of_lt (split_lt hi (Nat.xor_lt_two_pow hj hm))
    by_contra hne
    have hcases := hv _ hne
    have hone := Nat.two_pow_pos T.logicalWire
    rw [hvalue] at hcases
    omega

theorem Sound.exists_rest [EigenSolver ℝ] (h : T.Sound) {v : Fin (2 ^ T.wires) → ℂ} (hv : T.IsLogical v) {ι : Type*}
    [Fintype ι] {c : ι → ℂ} {p : ι → PauliString T.wires} {m : Operator T.wires} (hm : m = ∑ e, c e • (p e).operator)
    (hp : ∀ e, T.Corrects (p e)) : ∃ rest : Fin (2 ^ T.syndrome) → ℂ, ∀ i (hi : i < 2 ^ T.code) (j : Fin (2 ^ T.syndrome)),
      ((T.recovery * m * gatesOn T.encoder) *ᵥ v) ⟨i + 2 ^ T.code * j, split_lt hi j.isLt⟩ =
        v (state T.wires i) * rest j := by
  choose k j hj hvalue using fun e => h.recovery_mulVec hv (hp e)
  refine ⟨fun l => ∑ e, if l.val = j e then c e * unit (k e) else 0, fun i hi l => ?_⟩
  have hsum : (T.recovery * m * gatesOn T.encoder) *ᵥ v = ∑ e, c e • unit (k e) • ((T.reading (j e)).operator *ᵥ v) := by
    rw [hm, ← mulVec_mulVec, ← mulVec_mulVec, sum_mulVec, mulVec_sum]
    refine Finset.sum_congr rfl fun e _ => ?_
    rw [smul_mulVec, mulVec_smul, hvalue]
  rw [hsum, Finset.sum_apply, Finset.mul_sum]
  refine Finset.sum_congr rfl fun e _ => ?_
  rw [Pi.smul_apply, Pi.smul_apply, h.reading_mulVec hv hi l.isLt (hj e), smul_eq_mul, smul_eq_mul]
  split
  · ring
  · rw [mul_zero, mul_zero, mul_zero]

theorem layout_wellFormed (h : T.Sound) : T.layout.WellFormed := by
  refine ⟨⟨rfl, (Nat.zero_add _).symm, trivial⟩, ?_, ?_⟩
  · change T.code + T.syndrome = T.code + (T.syndrome + 0)
    rw [Nat.add_zero]
  · exact List.forall_mem_cons.2 ⟨h.nonempty.1, List.forall_mem_singleton.2 h.nonempty.2⟩

theorem blank_eq (h : T.Sound) (name : String) : (T.assembled ℝ).blank name = .ok ⟨name, T.layout, []⟩ := by
  have hsyndrome : Circuit.addRegister (⟨name, ⟨[⟨"code", T.code, 0⟩], T.code⟩, []⟩ : Circuit ℝ) "syndrome" T.syndrome =
      .ok (⟨"syndrome", T.syndrome, T.code⟩, ⟨name, T.layout, []⟩) :=
    Circuit.addRegister_eq_ok_iff.2 ⟨h.nonempty.2, rfl, rfl⟩
  have hcode := Circuit.addRegister_empty (R := ℝ) h.nonempty.1 name "code"
  exact bind_eq_ok_iff.2 ⟨_, bind_eq_ok_iff.2 ⟨_, hcode, bind_eq_ok_iff.2 ⟨_, hsyndrome, rfl⟩⟩, rfl⟩

section Channel

variable [EigenSolver ℝ] {channel : Circuit ℝ} {m : Operator T.wires}

theorem applies_correction (h : T.Sound) : (T.assembled ℝ).correction.Applies
    (Operation.stepsMeaning T.wires (T.corrections.map (Correction.step ℝ T.syndromeWires))) := by
  have hmade : Circuit.MadeOf (fun g => g.IsNumeric ∧ ¬ g.ReadsSpectrum) (T.assembled ℝ).correction := by
    refine Circuit.madeOf_iff.2 ⟨Circuit.wellFormed_iff.2 ⟨layout_wellFormed h, fun s hs => ?_⟩, fun s hs => ?_⟩
    all_goals
      obtain ⟨c, hc, rfl⟩ := List.mem_map.1 hs
      have hcount : 0 < c.flags.length := (h.corrections c hc).flags ▸ h.nonempty.2
    · exact ⟨Sound.step_fits (h.corrections c hc), .controlled (.primitive trivial) rfl hcount⟩
    · exact ⟨.controlled (.primitive trivial) rfl hcount, fun _ _ hg => List.mem_singleton.1 hg ▸ ⟨trivial, id⟩⟩
  have hmeaning : @Circuit.meaning EigenSolver.spectral (T.assembled ℝ).correction =
      Operation.stepsMeaning T.wires (T.corrections.map (Correction.step ℝ T.syndromeWires)) :=
    (@Sound.stepsMeaning_corrections T EigenSolver.spectral _ h.corrections).trans
      (Sound.stepsMeaning_corrections h.corrections).symm
  exact Circuit.WellFormed.applies_of_spectral hmade.wellFormed (hmade.mono fun _ => And.left).isExact
    (fun g hg => (hmade.gates false g hg).2) hmeaning

theorem withChannel_applies (h : T.Sound) (hsizes : channel.layout.sizes = [T.code, T.syndrome])
    (happlies : channel.Applies m) : ∃ c, (T.assembled ℝ).withChannel channel = .ok c ∧
      c.Applies (T.recovery * m * gatesOn T.encoder) := by
  have hlayout := layout_wellFormed h
  have hself : T.layout.agrees T.layout = true := by
    rw [Layout.agrees, beq_self_eq_true, beq_self_eq_true, Bool.and_self]
  have hchannel : T.layout.agrees channel.layout = true := by
    rw [Layout.agrees, hsizes, show channel.layout.wires = T.wires from happlies.wires]
    exact Bool.and_eq_true_iff.2 ⟨beq_self_eq_true _, beq_self_eq_true _⟩
  have hblank : Circuit.Applies (⟨"qec", T.layout, []⟩ : Circuit ℝ) (1 : Operator T.wires) :=
    @Circuit.applies_fixed _ "qec" T.layout [] hlayout (List.forall_mem_nil _)
  have hadjoint := gatesOn_adjoint h.encoder
  have hdecoder : ∀ g ∈ T.encoder.reverse.map fun g => (g.1.adjoint, g.2), GateFits T.wires g := by
    intro g hg
    obtain ⟨d, hd, rfl⟩ := List.mem_map.1 hg
    exact (h.encoder d (List.mem_reverse.1 hd)).adjoint
  have hparts : List.Forall₂ (fun (part : Circuit ℝ) m => T.layout.agrees part.layout = true ∧ part.Applies m)
      [(T.assembled ℝ).encoder, channel, (T.assembled ℝ).extraction, (T.assembled ℝ).correction, (T.assembled ℝ).decoder]
      [gatesOn T.encoder, m, gatesOn T.extraction,
        Operation.stepsMeaning T.wires (T.corrections.map (Correction.step ℝ T.syndromeWires)), (gatesOn T.encoder)ᴴ] :=
    .cons ⟨hself, Circuit.applies_fixed hlayout h.encoder⟩ <| .cons ⟨hchannel, happlies⟩ <|
      .cons ⟨hself, Circuit.applies_fixed hlayout h.extraction_fits⟩ <| .cons ⟨hself, applies_correction h⟩ <|
        .cons ⟨hself, hadjoint ▸ Circuit.applies_fixed hlayout hdecoder⟩ .nil
  obtain ⟨c, hc, hmap⟩ := hblank.foldlM_extend rfl hparts
  refine ⟨c, bind_eq_ok_iff.2 ⟨_, blank_eq h "qec", hc⟩, ?_⟩
  have hprod : (List.reverse [gatesOn T.encoder, m, gatesOn T.extraction,
      Operation.stepsMeaning T.wires (T.corrections.map (Correction.step ℝ T.syndromeWires)),
        (gatesOn T.encoder)ᴴ]).prod * 1 = T.recovery * m * gatesOn T.encoder := by
    simp [recovery, mul_assoc]
  rwa [hprod] at hmap

/-- Tables that pass the check correct every unitary channel that combines the errors that they correct. -/
theorem Sound.corrects_channel (h : T.Sound) (hsizes : channel.layout.sizes = [T.code, T.syndrome])
    (happlies : channel.Applies m) (hunitary : m ∈ unitaryGroup _ ℂ) {ι : Type*} [Fintype ι] {a : ι → ℂ}
    {p : ι → PauliString T.wires} (hm : m = ∑ e, a e • (p e).operator) (hp : ∀ e, T.Corrects (p e)) {α β : Cx ℝ}
    (hone : α.normSq + β.normSq = 1) : (T.assembled ℝ).Restores channel α β := by
  let s := (T.assembled ℝ).logical α β
  have hs : s.IsNormalised T.wires := h.isNormalised_logical α β hone
  obtain ⟨c, hc, hmap⟩ := withChannel_applies h hsizes happlies
  obtain ⟨rest, hrest⟩ := h.exists_rest (isLogical_logical α β) hm hp
  have htotal : T.recovery * m * gatesOn T.encoder ∈ unitaryGroup _ ℂ :=
    mul_mem (mul_mem h.recovery_mem_unitary hunitary) (gatesOn_mem_unitary h.encoder)
  let output := State.ofVector ((T.recovery * m * gatesOn T.encoder) *ᵥ s.vector T.wires)
  have hproduct : output.IsProduct T.code T.syndrome s (.ofVector rest) := by
    intro i hi j hj
    have hlow : i < 2 ^ T.wires := hi.trans_le (Nat.pow_le_pow_right Nat.two_pos (Nat.le_add_right _ _))
    apply Cx.toComplex_injective
    rw [Cx.toComplex_mul, State.amp_ofVector rest ⟨j, hj⟩, State.amp_ofVector _ ⟨_, split_lt hi hj⟩, hrest i hi ⟨j, hj⟩,
      State.vector, val_state_of_lt hlow]
    rfl
  -- The recovery keeps lengths, and the output has the length of the input times that of the rest.
  have hmass := hproduct.mass_vector
  rw [h.sum_normSq_logical, hone, one_mul, State.vector_ofVector, mass_mulVec htotal, hs.mass] at hmass
  have hnormalised : (State.ofVector rest).IsNormalised T.syndrome := ⟨rfl, hmass.symm⟩
  refine ⟨c, output, .ofVector rest, hc, hmap s rfl, hnormalised, hproduct, ?_⟩
  exact ErrorCorrection.logicalFidelity_of_isProduct rfl rfl rfl hproduct ((h.sum_normSq_logical α β).trans hone) hnormalised

end Channel

end CodeTables
end QuantumCircuits
end
