import Mathlib
import QuantumCircuits.Random.DrawSource
import QuantumCircuits.Proofs.Number.Exact

/-! Independent uniform draws from the unit interval, and means over them. The first draw and the draws
after it are independent, so that a mean over all draws is a mean over the first one of means over the
others. -/

noncomputable section
namespace QuantumCircuits
open MeasureTheory

abbrev Draw := ↥(Set.Ico (0 : ℝ) 1)

namespace Draw

/-- The uniform distribution: a set of draws weighs as much as it is long. -/
def uniform : Measure Draw := volume.comap Subtype.val

theorem uniform_apply (t : Set Draw) : uniform t = volume (Subtype.val '' t) :=
  comap_subtype_coe_apply measurableSet_Ico volume t

instance isProbabilityMeasure_uniform : IsProbabilityMeasure uniform := by
  constructor
  rw [uniform_apply, Set.image_univ, Subtype.range_coe, Real.volume_Ico, sub_zero, ENNReal.ofReal_one]

theorem uniform_interval {lo hi : ℝ} (hlo : 0 ≤ lo) (hle : lo ≤ hi) (hhi : hi ≤ 1) :
    uniform.real {x | lo ≤ x ∧ x < hi} = hi - lo := by
  have himage : Subtype.val '' {x : Draw | lo ≤ x ∧ x < hi} = Set.Ico lo hi := by
    ext y
    constructor
    · rintro ⟨x, hx, rfl⟩
      exact hx
    · intro hy
      exact ⟨⟨y, hlo.trans hy.1, hy.2.trans_le hhi⟩, hy, rfl⟩
  rw [Measure.real, uniform_apply, himage, Real.volume_Ico, ENNReal.toReal_ofReal (sub_nonneg.2 hle)]

theorem measurableSet_interval (lo hi : ℝ) : MeasurableSet {x : Draw | lo ≤ x ∧ x < hi} :=
  measurable_subtype_coe measurableSet_Ico

end Draw

def draws : Measure (ℕ → Draw) := Measure.infinitePi fun _ => Draw.uniform

instance isProbabilityMeasure_draws : IsProbabilityMeasure draws := by
  unfold draws
  infer_instance

def splitDraws : (ℕ → Draw) ≃ᵐ Draw × (ℕ → Draw) where
  toFun ω := (ω 0, fun k => ω (k + 1))
  invFun p k := Nat.casesOn k p.1 p.2
  left_inv ω := by
    funext k
    cases k with
    | zero => rfl
    | succ k => rfl
  right_inv _ := rfl
  measurable_toFun := by
    change Measurable fun ω : ℕ → Draw => (ω 0, fun k => ω (k + 1))
    fun_prop
  measurable_invFun := by
    refine measurable_pi_lambda _ fun k => ?_
    cases k with
    | zero => exact measurable_fst
    | succ k => exact (measurable_pi_apply k).comp measurable_snd

theorem measurePreserving_splitDraws : MeasurePreserving splitDraws draws (Draw.uniform.prod draws) := by
  have hback : MeasurePreserving splitDraws.symm (Draw.uniform.prod draws) draws := by
    refine ⟨splitDraws.symm.measurable, Measure.eq_infinitePi _ fun s t ht => ?_⟩
    rw [Measure.map_apply splitDraws.symm.measurable (MeasurableSet.pi s.countable_toSet fun i _ => ht i)]
    have hbox : Set.preimage splitDraws.symm (Set.pi s t) = {x | 0 ∈ s → x ∈ t 0} ×ˢ
        Set.pi ((s.erase 0).preimage Nat.succ Nat.succ_injective.injOn) fun k => t (k + 1) := by
      ext ⟨x, ω⟩
      simp only [Set.mem_preimage, Set.mem_pi, Set.mem_prod, Finset.mem_coe, Finset.mem_preimage, Finset.mem_erase]
      constructor
      · exact fun h => ⟨h 0, fun k hk => h (k + 1) hk.2⟩
      · rintro ⟨hzero, hsucc⟩ k hk
        cases k with
        | zero => exact hzero hk
        | succ k => exact hsucc k ⟨k.succ_ne_zero, hk⟩
    have htail := Finset.prod_preimage Nat.succ (s.erase 0) Nat.succ_injective.injOn
      (fun k => Draw.uniform (t k)) fun k hk hrange => by
        obtain ⟨l, rfl⟩ := Nat.exists_eq_succ_of_ne_zero (Finset.mem_erase.1 hk).1
        exact absurd ⟨l, rfl⟩ hrange
    rw [hbox, Measure.prod_prod, draws, Measure.infinitePi_pi _ fun k _ => ht (k + 1)]
    refine (congrArg _ htail).trans ?_
    by_cases hzero : 0 ∈ s
    · have hfirst : {x | 0 ∈ s → x ∈ t 0} = t 0 := by simp [hzero]
      rw [hfirst, Finset.mul_prod_erase s (fun k => Draw.uniform (t k)) hzero]
    · have hfirst : {x : Draw | 0 ∈ s → x ∈ t 0} = Set.univ := by simp [hzero]
      rw [hfirst, measure_univ, one_mul, Finset.erase_eq_of_notMem hzero]
  exact hback.symm

/-- The function is integrable over independent draws, and this is its mean. -/
structure HasMean (f : (ℕ → Draw) → ℂ) (mean : ℂ) : Prop where
  integrable : Integrable f draws
  integral_eq : ∫ ω, f ω ∂draws = mean

namespace HasMean

theorem const (z : ℂ) : HasMean (fun _ => z) z := by
  refine ⟨integrable_const z, ?_⟩
  rw [integral_const, probReal_univ, one_smul]

/-- A first draw that selects one of finitely many outcomes, and for each outcome a function of the draws
after it: the mean is the sum of the means, each times the weight of the draws that select the outcome. -/
theorem select {α : Type} {outcome : Draw → α} {outcomes : Finset α} {weight : α → ℝ}
    {f : α → (ℕ → Draw) → ℂ} {mean : α → ℂ} (hall : ∀ x, outcome x ∈ outcomes)
    (hmeasurable : ∀ a ∈ outcomes, MeasurableSet {x | outcome x = a})
    (hweight : ∀ a ∈ outcomes, Draw.uniform.real {x | outcome x = a} = weight a)
    (hf : ∀ x, HasMean (f (outcome x)) (mean (outcome x))) :
    HasMean (fun ω => f (outcome (ω 0)) fun k => ω (k + 1)) (∑ a ∈ outcomes, weight a * mean a) := by
  -- The function as a sum over the outcomes, each term a function of the first draw times one of the others.
  let term (a : α) (p : Draw × (ℕ → Draw)) : ℂ := {x | outcome x = a}.indicator (fun _ => 1) p.1 * f a p.2
  have hterm (a : α) (ha : a ∈ outcomes) : Integrable (term a) (Draw.uniform.prod draws) ∧
      ∫ p, term a p ∂Draw.uniform.prod draws = weight a * mean a := by
    by_cases hselected : ∃ x, outcome x = a
    · obtain ⟨x, rfl⟩ := hselected
      have hindicator : Integrable ({y | outcome y = outcome x}.indicator fun _ => (1 : ℂ)) Draw.uniform :=
        (integrable_const 1).indicator (hmeasurable _ ha)
      refine ⟨hindicator.mul_prod (hf x).integrable, ?_⟩
      rw [integral_prod_mul, integral_indicator_const 1 (hmeasurable _ ha), hweight _ ha, (hf x).integral_eq,
        Complex.real_smul, mul_one]
    · have hempty : {x | outcome x = a} = ∅ := Set.eq_empty_iff_forall_notMem.2 fun x hx => hselected ⟨x, hx⟩
      have hzero : weight a = 0 := by rw [← hweight a ha, hempty, measureReal_empty]
      have hnever : term a = 0 := by
        funext p
        simp [term, hempty]
      rw [hnever, hzero]
      exact ⟨integrable_zero _ _ _, by simp⟩
  have hsum (ω : ℕ → Draw) : f (outcome (ω 0)) (fun k => ω (k + 1)) = ∑ a ∈ outcomes, term a (splitDraws ω) := by
    rw [Finset.sum_eq_single_of_mem (outcome (ω 0)) (hall (ω 0))]
    · simp [term, splitDraws]
    · intro a _ hne
      simp [term, splitDraws, hne.symm]
  have hintegrable : Integrable (fun p => ∑ a ∈ outcomes, term a p) (Draw.uniform.prod draws) :=
    integrable_finsetSum _ fun a ha => (hterm a ha).1
  simp only [hsum]
  refine ⟨measurePreserving_splitDraws.integrable_comp_emb splitDraws.measurableEmbedding |>.2 hintegrable, ?_⟩
  rw [measurePreserving_splitDraws.integral_comp' fun p => ∑ a ∈ outcomes, term a p,
    integral_finsetSum _ fun a ha => (hterm a ha).1]
  exact Finset.sum_congr rfl fun a ha => (hterm a ha).2

theorem select_interval {α : Type} {outcome : Draw → α} {outcomes : Finset α} {interval : α → ℝ × ℝ}
    {f : α → (ℕ → Draw) → ℂ} {mean : α → ℂ} (hall : ∀ x, outcome x ∈ outcomes)
    (hselected : ∀ a ∈ outcomes, ∀ x, outcome x = a ↔ (interval a).1 ≤ x.val ∧ x.val < (interval a).2)
    (hbounds : ∀ a ∈ outcomes, 0 ≤ (interval a).1 ∧ (interval a).1 ≤ (interval a).2 ∧ (interval a).2 ≤ 1)
    (hf : ∀ x, HasMean (f (outcome x)) (mean (outcome x))) :
    HasMean (fun ω => f (outcome (ω 0)) fun k => ω (k + 1))
      (∑ a ∈ outcomes, ((interval a).2 - (interval a).1 : ℝ) * mean a) := by
  have hset (a : α) (ha : a ∈ outcomes) :
      {x | outcome x = a} = {x : Draw | (interval a).1 ≤ x.val ∧ x.val < (interval a).2} :=
    Set.ext (hselected a ha)
  refine select hall (fun a ha => ?_) (fun a ha => ?_) hf
  · rw [hset a ha]
    exact Draw.measurableSet_interval _ _
  · obtain ⟨hlo, hle, hhi⟩ := hbounds a ha
    rw [hset a ha]
    exact Draw.uniform_interval hlo hle hhi

end HasMean

end QuantumCircuits
end
