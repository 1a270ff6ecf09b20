import QuantumCircuits.Random.DrawSource

/-! Choice of an index with probability proportional to its weight. -/

namespace QuantumCircuits

/-- The first place from `low` on and below `high` at which a test fails, or `high`. Of the places
the one in the middle is tested, so the test must not succeed again after it failed. -/
def firstFailure (test : Nat → Bool) (low high : Nat) : Nat :=
  if low < high then
    let middle := (low + high) / 2
    if test middle then firstFailure test (middle + 1) high else firstFailure test low middle
  else low
termination_by high - low

theorem firstFailure_spec {test : Nat → Bool} {low high : Nat}
    (initial : ∀ i j, i ≤ j → j < high → test j = true → test i = true) (h : low ≤ high) :
    low ≤ firstFailure test low high ∧ firstFailure test low high ≤ high ∧
      (∀ i, low ≤ i → i < firstFailure test low high → test i = true) ∧
      ∀ i, firstFailure test low high ≤ i → i < high → test i = false := by
  fun_induction firstFailure test low high with
  | case1 low high hlt middle success ih =>
    obtain ⟨above, below, succeed, fail⟩ := ih initial (by omega)
    refine ⟨by omega, below, fun i hi lt => ?_, fail⟩
    by_cases hm : i ≤ middle
    · exact initial i middle hm (by omega) success
    · exact succeed i (by omega) lt
  | case2 low high hlt middle failure ih =>
    have initial' : ∀ i j, i ≤ j → j < middle → test j = true → test i = true := fun i j hij hj =>
      initial i j hij (by omega)
    obtain ⟨above, below, succeed, fail⟩ := ih initial' (by omega)
    refine ⟨above, by omega, succeed, fun i hi lt => ?_⟩
    by_cases hm : i < middle
    · exact fail i hi hm
    · cases again : test i with
      | false => rfl
      | true => exact absurd (initial middle i (by omega) lt again) failure
  | case3 low high hge => exact ⟨by omega, by omega, by omega, by omega⟩

/-- Running sums of all weights but the last, and the sum of all weights. -/
structure WeightedChoice (R : Type) where
  bounds : Array R
  total : R

namespace WeightedChoice

variable {R : Type} [Scalar R]

def accumulate (choice : WeightedChoice R) : List R → Except WeightFault (WeightedChoice R)
  | [] => .ok choice
  | w :: ws =>
    if (0 : R) ≤ w then accumulate ⟨choice.bounds.push choice.total, choice.total + w⟩ ws
    else .error .negativeOrUnordered

def ofWeights : List R → Except WeightFault (WeightedChoice R)
  | [] => .error .negativeOrUnordered
  | w :: ws =>
    if (0 : R) ≤ w then do
      let choice ← accumulate ⟨#[], w⟩ ws
      if choice.total == 0 then .error .allZero else return choice
    else .error .negativeOrUnordered

def index (choice : WeightedChoice R) (u : R) : Nat :=
  let point := u * choice.total
  firstFailure (fun i => decide (choice.bounds.getD i 0 ≤ point)) 0 choice.bounds.size

def sample (choice : WeightedChoice R) : Sampler R Nat :=
  return choice.index (← Sampler.drawFraction)

end WeightedChoice
end QuantumCircuits
