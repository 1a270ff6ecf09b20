import Mathlib
import QuantumCircuits.Proofs.Optimization.Expectation
import QuantumCircuits.Proofs.Optimization.Simplex

/-! Searches for angles. They start from drawn angles and from a point next to them for each angle. Every point has
an expected cost, so that a search never fails, and the angles that it finds are worth what it says and no less than
any point it started from. -/

noncomputable section
namespace QuantumCircuits.AlternatingAnsatz

variable {clauses : List (Clause ℝ)} {layers shots maxSteps : ℕ} {a : AlternatingAnsatz ℝ} {angles : LayerAngles ℝ}

section Points

theorem length_toPoint (h : HasLayers layers angles) : angles.toPoint.length = 2 * layers := by
  rw [LayerAngles.toPoint, List.length_append, h.1, h.2, two_mul]

theorem ofPoint_toPoint (h : HasLayers layers angles) : LayerAngles.ofPoint layers angles.toPoint = angles := by
  obtain ⟨gamma, beta⟩ := angles
  obtain ⟨hgamma, rfl⟩ := h
  change LayerAngles.mk _ _ = _
  rw [LayerAngles.toPoint, List.drop_left, List.take_left, List.take_of_length_le hgamma.le]

theorem hasLayers_ofPoint {p : List ℝ} (hp : p.length = 2 * layers) : HasLayers layers (.ofPoint layers p) := by
  constructor
  · rw [LayerAngles.ofPoint, List.length_take, List.length_drop, hp]
    omega
  · rw [LayerAngles.ofPoint, List.length_take, hp]
    omega

end Points

section Starts

def nextDraws (source : DrawSource ℝ) (n : ℕ) : List ℝ := (List.range n).map fun i => source.unit (source.used + i)

def drawnAngles (layers : ℕ) (source : DrawSource ℝ) : LayerAngles ℝ :=
  ⟨nextDraws source layers, nextDraws (source.advance layers) layers⟩

def moved (initial : List ℝ) (source : DrawSource ℝ) (i : ℕ) : List ℝ :=
  initial.set i (initial.getD i 0 + (1 / ((4 : ℕ) : ℝ) + Scalar.half 1 * source.unit (source.used + i)))

theorem length_nextDraws (source : DrawSource ℝ) (n : ℕ) : (nextDraws source n).length = n := by
  rw [nextDraws, List.length_map, List.length_range]

theorem hasLayers_drawnAngles (layers : ℕ) (source : DrawSource ℝ) : HasLayers layers (drawnAngles layers source) :=
  ⟨length_nextDraws source layers, length_nextDraws _ layers⟩

theorem length_moved (initial : List ℝ) (source : DrawSource ℝ) (i : ℕ) :
    (moved initial source i).length = initial.length := List.length_set

theorem run_initialAngles (a : AlternatingAnsatz ℝ) (source : DrawSource ℝ) :
    a.initialAngles.run.run source = (.ok (drawnAngles a.layers source), source.advance (2 * a.layers)) := by
  have hdraws (source : DrawSource ℝ) :
      ((List.range a.layers).mapM fun _ => (Sampler.drawUnit : Sampler ℝ ℝ)).run.run source =
        (.ok (nextDraws source a.layers), source.advance a.layers) := by
    refine (Sampler.run_mapM (g := fun _ source => source.unit source.used) (fun _ _ => rfl) _ source).trans ?_
    congr 2
    · refine List.ext_getElem (by simp [nextDraws]) fun i _ _ => ?_
      simp [nextDraws, DrawSource.advance]
    · rw [List.length_range]
  rw [initialAngles, run_bind (hdraws source), run_bind (hdraws _), DrawSource.advance_advance, two_mul]
  rfl

theorem run_startingPoints (initial : List ℝ) (source : DrawSource ℝ) : (startingPoints initial).run.run source =
    (.ok (initial :: (List.range initial.length).map (moved initial source)), source.advance initial.length) := by
  have hmove (e : ℝ × ℕ) (source : DrawSource ℝ) :
      (do return initial.set e.2 (e.1 + (1 / ((4 : ℕ) : ℝ) + Scalar.half 1 * (← Sampler.drawUnit))) :
        Sampler ℝ (List ℝ)).run.run source =
        (.ok (initial.set e.2 (e.1 + (1 / ((4 : ℕ) : ℝ) + Scalar.half 1 * source.unit source.used))), source.advance 1) := rfl
  have hmoved := Sampler.run_mapM hmove initial.zipIdx source
  have hlist : (initial.zipIdx.mapIdx fun i e => initial.set e.2 (e.1 + (1 / ((4 : ℕ) : ℝ) + Scalar.half 1 *
      (source.advance i).unit (source.advance i).used))) = (List.range initial.length).map (moved initial source) := by
    refine List.ext_getElem (by simp) fun i hi _ => ?_
    rw [List.length_mapIdx, List.length_zipIdx] at hi
    have hcoordinate : initial.getD i 0 = initial[i] := (List.getElem_eq_getD 0).symm
    simp only [List.getElem_mapIdx, List.getElem_zipIdx, List.getElem_map, List.getElem_range, moved, hcoordinate,
      DrawSource.advance, Nat.zero_add]
  rw [startingPoints, run_bind hmoved, hlist, List.length_zipIdx]
  rfl

end Starts

section Search

variable [EigenSolver ℝ]

theorem objective_eq_ok_iff {p : List ℝ} {y : ℝ} : a.objective p = .ok y ↔
    ∃ x, a.exactExpectation (.ofPoint a.layers p) = .ok x ∧ -x = y := by
  unfold objective
  cases a.exactExpectation (.ofPoint a.layers p) <;> simp

theorem hasCosts_objective (ha : ofClauses clauses layers shots maxSteps = .ok a) :
    Simplex.HasCosts a.objective (2 * layers) := by
  obtain ⟨n, hn, _, _, rfl⟩ := ofClauses_eq_ok_iff.1 ha
  intro p hp
  have hbind := bind_of_hasLayers (a := assembled clauses n layers shots maxSteps) (hasLayers_ofPoint hp) rfl
  obtain ⟨t, hfinal, _⟩ := exists_final (a := assembled clauses n layers shots maxSteps) hn (.ofPoint layers p)
  exact ⟨_, objective_eq_ok_iff.2 ⟨_, exactExpectation_of_final hbind hfinal, rfl⟩⟩

theorem succeeds_minimize_objective (ha : ofClauses clauses layers shots maxSteps = .ok a) {points : List (List ℝ)}
    (hpoints : ∀ p ∈ points, p.length = 2 * layers) (hseveral : 2 ≤ points.length) :
    Succeeds (Simplex.minimize a.objective points a.maxSteps) fun found =>
      HasLayers layers (.ofPoint layers found.1.point) ∧
      a.exactExpectation (.ofPoint layers found.1.point) = .ok (-found.1.cost) ∧ found.2 ≤ maxSteps ∧
      ∀ p ∈ points, ∃ x, a.exactExpectation (.ofPoint layers p) = .ok x ∧ x ≤ -found.1.cost := by
  have hcosts := hasCosts_objective ha
  obtain ⟨n, _, _, _, rfl⟩ := ofClauses_eq_ok_iff.1 ha
  refine (Simplex.succeeds_minimize hcosts hpoints hseveral maxSteps).mono fun ⟨v, iterations⟩ ⟨heval, hcount, hle⟩ => ?_
  refine ⟨hasLayers_ofPoint heval.length, ?_, hcount, fun p hp => ?_⟩
  · obtain ⟨x, hx, hcost⟩ := objective_eq_ok_iff.1 heval.cost_eq
    rw [← hcost, neg_neg]
    exact hx
  · obtain ⟨_, hy, hle⟩ := hle p hp
    obtain ⟨x, hx, rfl⟩ := objective_eq_ok_iff.1 hy
    exact ⟨x, hx, le_neg_of_le_neg hle⟩

/-- A search from drawn angles returns, within the allowed steps, one angle of each kind for each layer with their
expected cost. It is at least the expected cost of the drawn angles, and of these with any one of them moved. -/
theorem optimize_not_worse (ha : ofClauses clauses layers shots maxSteps = .ok a) (hlayers : 1 ≤ layers)
    (source : DrawSource ℝ) :
    ∃ start s, a.initialAngles.run.run source = (.ok start, source.advance (2 * layers)) ∧
      a.optimize.run.run source = (.ok s, source.advance (4 * layers)) ∧
      HasLayers layers s.angles ∧ a.exactExpectation s.angles = .ok s.expectation ∧ s.iterations ≤ maxSteps ∧
      (∃ x, a.exactExpectation start = .ok x ∧ x ≤ s.expectation) ∧
      ∀ i < 2 * layers, ∃ x, a.exactExpectation
        (.ofPoint layers (moved start.toPoint (source.advance (2 * layers)) i)) = .ok x ∧ x ≤ s.expectation := by
  obtain ⟨start, hangles, hinitial⟩ : ∃ start, HasLayers layers start ∧
      a.initialAngles.run.run source = (.ok start, source.advance (2 * layers)) := by
    have hinitial := run_initialAngles a source
    obtain ⟨n, _, _, _, rfl⟩ := ofClauses_eq_ok_iff.1 ha
    exact ⟨_, hasLayers_drawnAngles layers source, hinitial⟩
  have hlength := length_toPoint hangles
  have hpoints := run_startingPoints start.toPoint (source.advance (2 * layers))
  rw [hlength, DrawSource.advance_advance, ← Nat.add_mul] at hpoints
  have hlengths : ∀ p ∈ start.toPoint :: (List.range (2 * layers)).map (moved start.toPoint (source.advance (2 * layers))),
      p.length = 2 * layers :=
    List.forall_mem_cons.2 ⟨hlength, List.forall_mem_map.2 fun i _ => (length_moved _ _ i).trans hlength⟩
  obtain ⟨⟨v, iterations⟩, hfound, hlayered, hexact, hcount, hle⟩ := succeeds_minimize_objective ha hlengths <| by
    rw [List.length_cons, List.length_map, List.length_range]
    omega
  obtain ⟨hstart, hmoved⟩ := List.forall_mem_cons.1 hle
  refine ⟨start, ⟨.ofPoint layers v.point, -v.cost, iterations⟩, hinitial, ?_, hlayered, hexact, hcount, ?_, fun i hi => ?_⟩
  · obtain ⟨n, _, _, _, rfl⟩ := ofClauses_eq_ok_iff.1 ha
    rw [optimize, run_bind hinitial, run_bind hpoints]
    exact run_bind (run_liftM hfound)
  · rwa [ofPoint_toPoint hangles] at hstart
  · exact hmoved _ (List.mem_map_of_mem (List.mem_range.2 hi))

end Search

def halves : DrawSource ℝ := ⟨fun _ => Scalar.half 1, fun _ => Scalar.half 1, 0⟩

attribute [local instance] EigenSolver.spectral in
theorem optimize_not_worse_tension : ∃ a s rest x y z, ofClauses tension 1 100 10 = .ok a ∧
    a.optimize.run.run halves = (.ok s, rest) ∧ a.exactExpectation s.angles = .ok s.expectation ∧ s.iterations ≤ 10 ∧
    a.exactExpectation ⟨[1 / 2], [1 / 2]⟩ = .ok x ∧ x ≤ s.expectation ∧
    a.exactExpectation ⟨[1 / 2], [1]⟩ = .ok y ∧ y ≤ s.expectation ∧
    a.exactExpectation ⟨[1], [1 / 2]⟩ = .ok z ∧ z ≤ s.expectation := by
  obtain ⟨start, s, hstart, hrun, _, hexact, hcount, ⟨x, hx, hxs⟩, hmoved⟩ :=
    optimize_not_worse ofClauses_tension le_rfl halves
  have hsame := (run_initialAngles (assembled tension 2 1 100 10) halves).symm.trans hstart
  obtain rfl : ⟨[1 / 2], [1 / 2]⟩ = start := Except.ok.inj (Prod.mk.inj hsame).1
  have hmove (i : ℕ) : moved [1 / 2, 1 / 2] (halves.advance 2) i = [1 / 2, 1 / 2].set i ([1 / 2, 1 / 2].getD i 0 + 1 / 2) := by
    rw [moved]
    norm_num [halves, DrawSource.advance, Scalar.half_real]
  have hbeta : LayerAngles.ofPoint 1 (moved [1 / 2, 1 / 2] (halves.advance 2) 0) = ⟨[1 / 2], [1]⟩ := by
    rw [hmove]
    norm_num [LayerAngles.ofPoint]
  have hgamma : LayerAngles.ofPoint 1 (moved [1 / 2, 1 / 2] (halves.advance 2) 1) = ⟨[1], [1 / 2]⟩ := by
    rw [hmove]
    norm_num [LayerAngles.ofPoint]
  obtain ⟨y, hy, hys⟩ := hmoved 0 (by decide)
  obtain ⟨z, hz, hzs⟩ := hmoved 1 (by decide)
  exact ⟨_, s, _, x, y, z, ofClauses_tension, hrun, hexact, hcount, hx, hxs, hbeta ▸ hy, hys, hgamma ▸ hz, hzs⟩

end QuantumCircuits.AlternatingAnsatz
end
