import Mathlib
import QuantumCircuits.Optimization.AlternatingAnsatz
import QuantumCircuits.Proofs.Circuit.MadeOf
import QuantumCircuits.Proofs.Circuit.Templates
import QuantumCircuits.Proofs.Gate.TokenNames
import QuantumCircuits.Proofs.Matrix.Exponential
import QuantumCircuits.Proofs.Operator.Registers
import QuantumCircuits.Proofs.Random.Accounting

/-! The circuit of a problem. No call that builds the template is refused, and bound to angles it is the
circuit with the numbers in place of the tokens: the values travel through two families in one map, whose
names never meet. -/

noncomputable section
namespace QuantumCircuits.AlternatingAnsatz
open Matrix QuantumCircuits.Basis Operator

variable {clauses : List (Clause ℝ)} {n layers shots maxSteps : ℕ} {cost : DenseMatrix (Cx ℝ)}

section Cost

theorem shaped_costMatrix (clauses : List (Clause ℝ)) (n : ℕ) : (costMatrix clauses n).Shaped (2 ^ n) (2 ^ n) :=
  DenseMatrix.shaped_diagonal (by rw [List.length_map, Basis.indices, List.length_range])

theorem toMatrix_costMatrix (clauses : List (Clause ℝ)) (n : ℕ) : (costMatrix clauses n).toMatrix (2 ^ n) (2 ^ n) =
    Matrix.diagonal fun z : Fin (2 ^ n) => ((costOf clauses n z : ℝ) : ℂ) := by
  rw [costMatrix, DenseMatrix.toMatrix_diagonal (by rw [List.length_map, Basis.indices, List.length_range])]
  congr 1
  funext z
  rw [List.getD_eq_getElem?_getD, List.getElem?_map, Basis.indices, List.getElem?_range z.isLt]
  rfl

theorem isHamiltonian_costMatrix (clauses : List (Clause ℝ)) (hn : 0 < n) : (costMatrix clauses n).IsHamiltonian := by
  refine DenseMatrix.isHamiltonian_of_isHermitian hn (shaped_costMatrix clauses n) ?_
  rw [toMatrix_costMatrix]
  exact isHermitian_diagonal_of_self_adjoint _ (funext fun z => Complex.conj_ofReal _)

end Cost

section Assembly

def layerSteps (cost : DenseMatrix (Cx ℝ)) (n : ℕ) (time angle : Param ℝ) : List (Step (Operation ℝ)) :=
  .gate (.evolution cost time) (List.range n) :: (List.range n).map fun w => .gate (.rx angle) [w]

def circuitOf (cost : DenseMatrix (Cx ℝ)) (n : ℕ) (params : List (Param ℝ × Param ℝ)) : Circuit ℝ :=
  ⟨"qaoa", .single "q" n, (List.range n).map (fun w => .fixed .h [w]) ++
    params.flatMap fun (time, angle) => layerSteps cost n time angle⟩

def layerTokens (layers i : ℕ) : Param ℝ × Param ℝ :=
  ((gammaFamily layers).get i, ((betaFamily layers).get i).scale Scalar.two)

def assembled (clauses : List (Clause ℝ)) (n layers shots maxSteps : ℕ) : AlternatingAnsatz ℝ where
  clauses := clauses
  variableCount := n
  layers := layers
  shots := shots
  maxSteps := maxSteps
  template := circuitOf (costMatrix clauses n) n ((List.range layers).map (layerTokens layers))

theorem arity_evolution (hshape : cost.Shaped (2 ^ n) (2 ^ n)) (time : Param ℝ) : (Gate.evolution cost time).arity = n := by
  rw [Gate.arity, DenseMatrix.wireCount, hshape.rows, Nat.log2_two_pow]

theorem fits_layerSteps (hshape : cost.Shaped (2 ^ n) (2 ^ n)) (time angle : Param ℝ) :
    ∀ s ∈ layerSteps cost n time angle, s.Fits n := by
  refine List.forall_mem_cons.2 ⟨?_, fun s hs => ?_⟩
  · change Selects n (Gate.evolution cost time).arity (List.range n)
    rw [arity_evolution hshape]
    exact Selects.range n
  · obtain ⟨w, hw, rfl⟩ := List.mem_map.1 hs
    exact selects_singleton (List.mem_range.1 hw)

theorem layer_eq (hcost : cost.IsHamiltonian) (i : ℕ) : layer cost layers ⟨"q", n, 0⟩ i =
    .ok (layerSteps cost n (layerTokens layers i).1 (layerTokens layers i).2) := by
  refine bind_eq_ok_iff.2 ⟨_, Gate.ofHamiltonian_eq_ok_iff.2 ⟨hcost, rfl⟩, ?_⟩
  rw [Register.wires_first]
  rfl

theorem foldlM_layer (hcost : cost.IsHamiltonian) (hshape : cost.Shaped (2 ^ n) (2 ^ n)) (is : List ℕ) {c : Circuit ℝ}
    (hc : c.wires = n) : is.foldlM (fun c i => do c.appendAll (← layer cost layers ⟨"q", n, 0⟩ i)) c =
      .ok { c with steps := c.steps ++
        (is.map (layerTokens layers)).flatMap fun (time, angle) => layerSteps cost n time angle } := by
  induction is generalizing c with
  | nil =>
    rw [List.map_nil, List.flatMap_nil, List.append_nil]
    rfl
  | cons i is ih =>
    rw [List.foldlM_cons, layer_eq hcost]
    refine bind_eq_ok_iff.2 ⟨_, Circuit.appendAll_eq_ok_iff.2 ⟨?_, rfl⟩, ?_⟩
    · rw [hc]
      exact fits_layerSteps hshape _ _
    · refine Eq.trans (ih ?_) ?_
      · exact hc
      · rw [List.map_cons, List.flatMap_cons, List.append_assoc]

theorem buildTemplate_eq (hn : 0 < n) : buildTemplate clauses n layers =
    .ok (circuitOf (costMatrix clauses n) n ((List.range layers).map (layerTokens layers))) := by
  refine bind_eq_ok_iff.2 ⟨_, Circuit.addRegister_empty hn "qaoa" "q", ?_⟩
  refine bind_eq_ok_iff.2 ⟨_, Circuit.appendAll_eq_ok_iff.2 ⟨fun s hs => ?_, rfl⟩, ?_⟩
  · rw [Register.wires_first] at hs
    obtain ⟨w, hw, rfl⟩ := List.mem_map.1 hs
    exact selects_singleton (List.mem_range.1 hw)
  · rw [Register.wires_first]
    exact foldlM_layer (isHamiltonian_costMatrix clauses hn) (shaped_costMatrix clauses n) _ rfl

theorem ofClauses_eq_ok_iff {a : AlternatingAnsatz ℝ} : ofClauses clauses layers shots maxSteps = .ok a ↔
    ∃ n, 0 < n ∧ clauses ≠ [] ∧ (∀ c ∈ clauses, c.length = n) ∧ a = assembled clauses n layers shots maxSteps := by
  have hgiven {n : ℕ} (hn : 0 < n) (hclauses : ∀ c ∈ clauses, c.length = n) :
      ¬ (n = 0 || clauses.any fun c => c.length != n) = true := by
    simp only [Bool.or_eq_true, decide_eq_true_iff, List.any_eq_true, bne_iff_ne, not_or, not_exists, not_and, not_not]
    exact ⟨hn.ne', hclauses⟩
  unfold ofClauses
  constructor
  · intro h
    dsimp only at h
    split at h
    · cases h
    · next hfine =>
      simp only [Bool.or_eq_true, decide_eq_true_iff, List.any_eq_true, bne_iff_ne, not_or, not_exists, not_and,
        not_not] at hfine
      obtain ⟨hn, hclauses⟩ := hfine
      have hpos := Nat.pos_of_ne_zero hn
      obtain ⟨template, htemplate, same⟩ := bind_eq_ok_iff.1 h
      obtain rfl := Except.ok.inj ((buildTemplate_eq hpos).symm.trans htemplate)
      refine ⟨_, hpos, ?_, hclauses, (pure_eq_ok_iff.1 same).symm⟩
      rintro rfl
      exact hn rfl
  · rintro ⟨n, hn, hne, hclauses, rfl⟩
    obtain ⟨c, rest, rfl⟩ := List.exists_cons_of_ne_nil hne
    obtain rfl : c.length = n := hclauses c List.mem_cons_self
    change (if (c.length = 0 || (c :: rest).any fun d => d.length != c.length) = true then _ else _) = _
    rw [if_neg (hgiven hn hclauses)]
    exact bind_eq_ok_iff.2 ⟨_, buildTemplate_eq hn, rfl⟩

end Assembly

section Filling

variable {value : String → ℝ} {params : List (Param ℝ × Param ℝ)}

theorem fillSteps_layerSteps (time angle : Param ℝ) : Operation.fillSteps value (layerSteps cost n time angle) =
    layerSteps cost n (time.fill value) (angle.fill value) := by
  rw [Operation.fillSteps_eq_map, layerSteps, List.map_cons, List.map_map]
  rfl

theorem fill_circuitOf : (circuitOf cost n params).fill value =
    circuitOf cost n (params.map fun (time, angle) => (time.fill value, angle.fill value)) := by
  simp only [Circuit.fill, circuitOf, Operation.fillSteps_eq_map, List.map_append, List.map_map, List.map_flatMap,
    List.flatMap_map]
  congr 2
  refine List.flatMap_congr fun p _ => ?_
  rw [← Operation.fillSteps_eq_map]
  exact fillSteps_layerSteps p.1 p.2

theorem tokenNames_layerSteps {time angle : Param ℝ} {name : String}
    (h : name ∈ Operation.stepTokenNames (layerSteps cost n time angle)) : name ∈ time.tokenNames ∨ name ∈ angle.tokenNames := by
  rw [layerSteps, Operation.stepTokenNames_eq_flatMap, List.flatMap_cons, List.flatMap_map, List.mem_append,
    List.mem_flatMap] at h
  exact h.imp_right fun ⟨_, _, hname⟩ => hname

theorem tokenNames_circuitOf {name : String} (h : name ∈ Operation.stepTokenNames (circuitOf cost n params).steps) :
    ∃ p ∈ params, name ∈ p.1.tokenNames ∨ name ∈ p.2.tokenNames := by
  rw [Operation.stepTokenNames_eq_flatMap, circuitOf, List.flatMap_append, List.flatMap_map, List.flatMap_assoc,
    List.mem_append, List.mem_flatMap, List.mem_flatMap] at h
  rcases h with ⟨_, _, hname⟩ | ⟨p, hp, hname⟩
  · cases hname
  · rw [← Operation.stepTokenNames_eq_flatMap] at hname
    exact ⟨p, hp, tokenNames_layerSteps hname⟩

end Filling

section Binding

variable {a : AlternatingAnsatz ℝ} {angles : LayerAngles ℝ}

def HasLayers (layers : ℕ) (angles : LayerAngles ℝ) : Prop := angles.gamma.length = layers ∧ angles.beta.length = layers

/-- What is wrong with the numbers of angles; those of the evolutions are looked at first. -/
def countFault (layers : ℕ) (angles : LayerAngles ℝ) : StateFault :=
  if angles.gamma.length = layers then .valueCount angles.beta.length "beta" layers
  else .valueCount angles.gamma.length "gamma" layers

/-- The circuit with numbers: Hadamards, then for each layer an evolution under the cost for its time and
rotations about X by twice its angle. -/
def numbered (a : AlternatingAnsatz ℝ) (angles : LayerAngles ℝ) : Circuit ℝ :=
  circuitOf (costMatrix a.clauses a.variableCount) a.variableCount
    ((angles.gamma.zip angles.beta).map fun (γ, β) => (.value γ, .value (Scalar.two * β)))

theorem exists_bindings (h : HasLayers layers angles) : ∃ b₀ b,
    Bindings.empty.insertFamily (gammaFamily layers) angles.gamma = .ok b₀ ∧
    b₀.insertFamily (betaFamily layers) angles.beta = .ok b ∧
    (∀ i < layers, b.get? ((gammaFamily layers).tokenName i) = angles.gamma[i]?) ∧
    ∀ i < layers, b.get? ((betaFamily layers).tokenName i) = angles.beta[i]? := by
  obtain ⟨hgamma, hbeta⟩ := h
  let b₀ : Bindings ℝ := Bindings.empty.insertFrom (gammaFamily layers) 0 angles.gamma
  have hfirst : Bindings.empty.insertFamily (gammaFamily layers) angles.gamma = .ok b₀ := if_pos hgamma
  have hsecond : b₀.insertFamily (betaFamily layers) angles.beta = .ok (b₀.insertFrom (betaFamily layers) 0 angles.beta) :=
    if_pos hbeta
  have hname : (gammaFamily layers).name ≠ (betaFamily layers).name := show "gamma" ≠ "beta" by decide
  refine ⟨b₀, _, hfirst, hsecond, fun i hi => ?_, fun i hi => ?_⟩
  · rw [Bindings.get?_insertFamily_of_ne hsecond hname, Bindings.get?_insertFamily hfirst (hgamma ▸ hi)]
  · exact Bindings.get?_insertFamily hsecond (hbeta ▸ hi)

theorem bind_of_hasLayers (h : HasLayers a.layers angles)
    (htemplate : a.template = circuitOf (costMatrix a.clauses a.variableCount) a.variableCount
      ((List.range a.layers).map (layerTokens a.layers))) : a.bind angles = .ok (a.numbered angles) := by
  obtain ⟨b₀, b, hfirst, hsecond, hgamma, hbeta⟩ := exists_bindings h
  have hcovers : b.Covers (Operation.stepTokenNames a.template.steps) := by
    intro name hname
    rw [htemplate] at hname
    obtain ⟨p, hp, hname⟩ := tokenNames_circuitOf hname
    obtain ⟨i, hi, rfl⟩ := List.mem_map.1 hp
    have hi := List.mem_range.1 hi
    rcases hname with hname | hname
    · obtain rfl : name = (gammaFamily a.layers).tokenName i := List.mem_singleton.1 hname
      exact ⟨_, (hgamma i hi).trans (List.getElem?_eq_getElem (h.1.symm ▸ hi))⟩
    · obtain rfl : name = (betaFamily a.layers).tokenName i := List.mem_singleton.1 hname
      exact ⟨_, (hbeta i hi).trans (List.getElem?_eq_getElem (h.2.symm ▸ hi))⟩
  refine bind_eq_ok_iff.2 ⟨b₀, hfirst, bind_eq_ok_iff.2 ⟨b, hsecond, ?_⟩⟩
  rw [Circuit.bind_of_covers hcovers, htemplate, fill_circuitOf, numbered]
  congr 2
  refine List.ext_getElem ?_ fun i hi _ => ?_
  · rw [List.length_map, List.length_map, List.length_range, List.length_map, List.length_zip, h.1, h.2, min_self]
  · rw [List.length_map, List.length_map, List.length_range] at hi
    have hγ : i < angles.gamma.length := h.1.symm ▸ hi
    have hβ : i < angles.beta.length := h.2.symm ▸ hi
    have htime : b.value ((gammaFamily a.layers).tokenName i) = angles.gamma[i] := by
      rw [Bindings.value, hgamma i hi, List.getElem?_eq_getElem hγ, Option.getD_some]
    have hangle : b.value ((betaFamily a.layers).tokenName i) = angles.beta[i] := by
      rw [Bindings.value, hbeta i hi, List.getElem?_eq_getElem hβ, Option.getD_some]
    simp only [List.getElem_map, List.getElem_range, List.getElem_zip, layerTokens, ParamFamily.get, Param.ofToken,
      Param.scale, Param.fill, htime, hangle, one_mul]

theorem bind_of_not_hasLayers (h : ¬ HasLayers a.layers angles) :
    a.bind angles = .error (.state (countFault a.layers angles)) := by
  rw [countFault]
  by_cases hgamma : angles.gamma.length = a.layers
  · have hbeta : angles.beta.length ≠ a.layers := fun hbeta => h ⟨hgamma, hbeta⟩
    have hfirst : Bindings.empty.insertFamily (gammaFamily a.layers) angles.gamma = .ok _ := if_pos hgamma
    rw [bind, hfirst, if_pos hgamma]
    change (do let b ← Bindings.insertFamily _ (betaFamily a.layers) angles.beta; _) = _
    rw [Bindings.insertFamily_eq]
    exact congrArg (· >>= _) (if_neg hbeta)
  · have hfirst : Bindings.empty.insertFamily (gammaFamily a.layers) angles.gamma = .error _ := if_neg hgamma
    rw [bind, hfirst, if_neg hgamma]
    rfl

def tension : List (Clause ℝ) := [⟨[some true, none], 1⟩, ⟨[some true, some true], -Scalar.two⟩]

theorem ofClauses_tension : ofClauses tension 1 100 10 = .ok (assembled tension 2 1 100 10) := by
  refine ofClauses_eq_ok_iff.2 ⟨2, by decide, List.cons_ne_nil _ _, ?_, rfl⟩
  simp [tension, Clause.length]

/-- Of a problem that was accepted, the template bound to angles is the circuit with the numbers, and nothing
can be asked for angles that are not one of each kind for each layer. -/
theorem bind_eq_numbered [EigenSolver ℝ] (ha : ofClauses clauses layers shots maxSteps = .ok a) (angles : LayerAngles ℝ) :
    (HasLayers layers angles → a.bind angles = .ok (a.numbered angles)) ∧
    (¬ HasLayers layers angles →
      a.exactExpectation angles = .error (.state (countFault layers angles)) ∧
      ∀ source : DrawSource ℝ,
        (a.sampledExpectation angles).run.run source = (.error (.state (countFault layers angles)), source) ∧
        (∀ k, (a.measure angles k).run.run source = (.error (.state (countFault layers angles)), source)) ∧
        (a.sampleMode angles).run.run source = (.error (.state (countFault layers angles)), source)) := by
  obtain ⟨n, _, _, _, rfl⟩ := ofClauses_eq_ok_iff.1 ha
  refine ⟨fun h => bind_of_hasLayers h rfl, fun h => ?_⟩
  have hbind := bind_of_not_hasLayers (a := assembled clauses n layers shots maxSteps) h
  have hmeasure (source : DrawSource ℝ) (k : ℕ) :
      ((assembled clauses n layers shots maxSteps).measure angles k).run.run source = (.error _, source) :=
    run_bind_of_error (run_liftM_of_error hbind)
  refine ⟨?_, fun source => ⟨run_bind_of_error (hmeasure source _), hmeasure source,
    run_bind_of_error (hmeasure source _)⟩⟩
  rw [exactExpectation, hbind]
  rfl

attribute [local instance] EigenSolver.spectral in
theorem bind_eq_numbered_tension : ∃ a, ofClauses tension 1 100 10 = .ok a ∧
    a.bind ⟨[1], [3]⟩ = .ok (a.numbered ⟨[1], [3]⟩) ∧
    a.exactExpectation ⟨[1], []⟩ = .error (.state (.valueCount 0 "beta" 1)) ∧ ∀ source : DrawSource ℝ,
      (a.sampledExpectation ⟨[1], []⟩).run.run source = (.error (.state (.valueCount 0 "beta" 1)), source) ∧
      (∀ k, (a.measure ⟨[1], []⟩ k).run.run source = (.error (.state (.valueCount 0 "beta" 1)), source)) ∧
      (a.sampleMode ⟨[1], []⟩).run.run source = (.error (.state (.valueCount 0 "beta" 1)), source) :=
  ⟨_, ofClauses_tension, (bind_eq_numbered ofClauses_tension ⟨[1], [3]⟩).1 ⟨rfl, rfl⟩,
    (bind_eq_numbered ofClauses_tension ⟨[1], []⟩).2 fun h => absurd h.2 (by decide)⟩

end Binding

end QuantumCircuits.AlternatingAnsatz
end
