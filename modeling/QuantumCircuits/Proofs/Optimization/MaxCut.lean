import Mathlib
import QuantumCircuits.Proofs.Basis.Labels
import QuantumCircuits.Proofs.Optimization.AlternatingAnsatz

/-! Costs of cuts. The two clauses of an edge hold where the first end reads zero and the second one, or the other
way round, so that together they count the edge where its ends differ. Of a loop the second end overwrites the
first, and the clauses hold where the one vertex reads one and where it reads zero: a loop always counts. -/

noncomputable section
namespace QuantumCircuits

namespace Clause

variable {n a b : ℕ} {left right : Bool} {values : List Bool}

theorem satisfied_iff {c : Clause ℝ} : c.satisfied values = true ↔
    ∀ (j : ℕ) (x v : Bool), c.pattern[j]? = some (some x) → values[j]? = some v → x = v := by
  unfold satisfied
  rw [List.all_eq_true]
  constructor
  · intro h j x v hx hv
    have hpair : (some x, v) ∈ c.pattern.zip values :=
      List.mem_of_getElem? (List.getElem?_zip_eq_some.2 ⟨hx, hv⟩)
    simpa using h _ hpair
  · rintro h ⟨p, v⟩ hpair
    obtain ⟨j, hj⟩ := List.mem_iff_getElem?.1 hpair
    obtain ⟨hp, hv⟩ := List.getElem?_zip_eq_some.1 hj
    cases p with
    | none => rfl
    | some x => simpa using h j x v hp hv

theorem satisfied_ofEdge (ha : a < n) (hb : b < n) (hvalues : values.length = n) :
    (ofEdge n a b left right : Clause ℝ).satisfied values = true ↔
      (a ≠ b → values[a]? = some left) ∧ values[b]? = some right := by
  have hpattern (j : ℕ) : (ofEdge n a b left right : Clause ℝ).pattern[j]? =
      if b = j then some (some right) else if a = j then some (some left) else if j < n then some none else none := by
    unfold ofEdge
    simp only [List.getElem?_set, List.length_set, List.length_replicate, List.getElem?_replicate]
    grind
  obtain ⟨va, hva⟩ : ∃ v, values[a]? = some v := ⟨_, List.getElem?_eq_getElem (hvalues ▸ ha)⟩
  obtain ⟨vb, hvb⟩ : ∃ v, values[b]? = some v := ⟨_, List.getElem?_eq_getElem (hvalues ▸ hb)⟩
  rw [satisfied_iff, hva, hvb, Option.some_inj, Option.some_inj]
  constructor
  · intro h
    refine ⟨fun hne => (h a left va ?_ hva).symm, (h b right vb ?_ hvb).symm⟩
    · rw [hpattern, if_neg hne.symm, if_pos rfl]
    · rw [hpattern, if_pos rfl]
  · rintro ⟨hleft, hright⟩ j x v hx hv
    rw [hpattern] at hx
    split at hx
    · next hj =>
      subst hj
      grind
    · split at hx
      · next hne hj =>
        subst hj
        grind
      · grind

theorem length_ofEdge : (ofEdge n a b left right : Clause ℝ).length = n := by
  simp [ofEdge, length]

def ofEdges (n : ℕ) (edges : List (ℕ × ℕ)) : List (Clause ℝ) :=
  edges.flatMap fun (a, b) => [ofEdge n a b false true, ofEdge n a b true false]

theorem maxCut?_eq {edges : List (ℕ × ℕ)} (hends : ∀ e ∈ edges, e.1 < n ∧ e.2 < n) :
    maxCut? n edges = some (ofEdges n edges) := by
  refine if_pos ?_
  simpa using hends

end Clause

namespace AlternatingAnsatz
open QuantumCircuits.Basis

variable {clauses : List (Clause ℝ)} {n z a b layers shots maxSteps : ℕ} {edges : List (ℕ × ℕ)}

theorem length_assignment (n z : ℕ) : (assignment n z).length = n := by
  simp [assignment]

theorem getElem?_assignment (z : ℕ) (ha : a < n) : (assignment n z)[a]? = some (z.testBit (n - 1 - a)) := by
  rw [assignment, List.getElem?_map, List.getElem?_range ha]
  rfl

theorem costOf_nil (n z : ℕ) : costOf ([] : List (Clause ℝ)) n z = 0 := Scalar.sum_real []

theorem costOf_cons (c : Clause ℝ) (clauses : List (Clause ℝ)) (n z : ℕ) :
    costOf (c :: clauses) n z = (if c.satisfied (assignment n z) then c.weight else 0) + costOf clauses n z := by
  simp only [costOf, Scalar.sum_real, List.filter_cons]
  split <;> simp

theorem costOf_append (front back : List (Clause ℝ)) (n z : ℕ) :
    costOf (front ++ back) n z = costOf front n z + costOf back n z := by
  simp only [costOf, Scalar.sum_real, List.filter_append, List.map_append, List.sum_append]

def cutBy (text : String) (edge : ℕ × ℕ) : Bool := text.toList[edge.1]? != text.toList[edge.2]?

def isLoop (edge : ℕ × ℕ) : Bool := edge.1 == edge.2

theorem cutBy_label (hz : z < 2 ^ n) (ha : a < n) (hb : b < n) :
    cutBy (Basis.label n z) (a, b) = (z.testBit (n - 1 - a) != z.testBit (n - 1 - b)) := by
  rw [cutBy, getElem?_label hz ha, getElem?_label hz hb, Bool.eq_iff_iff]
  simp [digit_inj]

theorem costOf_edge (hz : z < 2 ^ n) (ha : a < n) (hb : b < n) :
    costOf [Clause.ofEdge n a b false true, Clause.ofEdge n a b true false] n z =
      ((if cutBy (Basis.label n z) (a, b) then 1 else 0) + if isLoop (a, b) then 1 else 0 : ℝ) := by
  have hsatisfied (left right : Bool) : (Clause.ofEdge n a b left right : Clause ℝ).satisfied (assignment n z) =
      ((a == b || z.testBit (n - 1 - a) == left) && z.testBit (n - 1 - b) == right) := by
    rw [Bool.eq_iff_iff, Clause.satisfied_ofEdge ha hb (length_assignment n z), getElem?_assignment z ha,
      getElem?_assignment z hb]
    simp [or_iff_not_imp_left]
  have hweight (left right : Bool) : (Clause.ofEdge n a b left right : Clause ℝ).weight = 1 := rfl
  rw [costOf_cons, costOf_cons, costOf_nil, hsatisfied, hsatisfied, hweight, hweight, cutBy_label hz ha hb, isLoop]
  by_cases hloop : a = b
  · subst hloop
    cases z.testBit (n - 1 - a) <;> simp
  · cases z.testBit (n - 1 - a) <;> cases z.testBit (n - 1 - b) <;> simp [hloop]

theorem costOf_ofEdges (hz : z < 2 ^ n) (hends : ∀ e ∈ edges, e.1 < n ∧ e.2 < n) :
    costOf (Clause.ofEdges n edges) n z =
      ((edges.countP (cutBy (Basis.label n z)) : ℕ) + (edges.countP isLoop : ℕ) : ℝ) := by
  induction edges with
  | nil => simp [Clause.ofEdges, costOf_nil]
  | cons e edges ih =>
    obtain ⟨a, b⟩ := e
    obtain ⟨⟨ha, hb⟩, hrest⟩ := List.forall_mem_cons.1 hends
    have hcons : Clause.ofEdges n ((a, b) :: edges) =
        [Clause.ofEdge n a b false true, Clause.ofEdge n a b true false] ++ Clause.ofEdges n edges := rfl
    rw [hcons, costOf_append, costOf_edge hz ha hb, ih hrest, List.countP_cons, List.countP_cons]
    push_cast
    ring

theorem ofClauses_ofEdges (hne : edges ≠ []) (hends : ∀ e ∈ edges, e.1 < n ∧ e.2 < n) :
    ofClauses (Clause.ofEdges n edges) layers shots maxSteps =
      .ok (assembled (Clause.ofEdges n edges) n layers shots maxSteps) := by
  obtain ⟨e, rest, rfl⟩ := List.exists_cons_of_ne_nil hne
  have hn : 0 < n := Nat.zero_lt_of_lt (hends e List.mem_cons_self).1
  refine ofClauses_eq_ok_iff.2 ⟨n, hn, List.cons_ne_nil _ _, fun c hc => ?_, rfl⟩
  obtain ⟨⟨a, b⟩, _, hc⟩ := List.mem_flatMap.1 hc
  rcases List.mem_pair.1 hc with rfl | rfl <;> exact Clause.length_ofEdge

/-- The problem of a graph without vertices out of range costs a basis state the number of edges whose ends carry
different characters in its label, and one more for each loop, so that the cost is the number of cut edges just
where the graph has no loops. -/
theorem cost_maxCut (hne : edges ≠ []) (hends : ∀ e ∈ edges, e.1 < n ∧ e.2 < n) (layers shots maxSteps : ℕ) :
    ∃ (clauses : List (Clause ℝ)) (a : AlternatingAnsatz ℝ), Clause.maxCut? n edges = some clauses ∧
      ofClauses clauses layers shots maxSteps = .ok a ∧ a.variableCount = n ∧
      (∀ z < 2 ^ n, (a.label z).length = n ∧
        a.cost z = (edges.countP (cutBy (a.label z)) : ℕ) + (edges.countP isLoop : ℕ)) ∧
      ((∀ z < 2 ^ n, a.cost z = (edges.countP (cutBy (a.label z)) : ℕ)) ↔ ∀ e ∈ edges, e.1 ≠ e.2) := by
  have hcost (z : ℕ) (hz : z < 2 ^ n) := costOf_ofEdges hz hends
  refine ⟨_, _, Clause.maxCut?_eq hends, ofClauses_ofEdges hne hends, rfl, fun z hz => ⟨?_, hcost z hz⟩, ?_⟩
  · have hn : 0 < n := by
      obtain ⟨e, he⟩ := List.exists_mem_of_ne_nil _ hne
      exact Nat.zero_lt_of_lt (hends e he).1
    rw [← String.length_toList]
    refine (congrArg List.length (toList_label hn hz)).trans ?_
    rw [List.length_map, List.length_range]
  · constructor
    · intro hcuts e he hloop
      have hnone : edges.countP isLoop = 0 := by
        have hboth := (hcost 0 (Nat.two_pow_pos n)).symm.trans (hcuts 0 (Nat.two_pow_pos n))
        exact Nat.cast_eq_zero.1 (left_eq_add.1 hboth.symm)
      exact List.countP_eq_zero.1 hnone e he (beq_iff_eq.2 hloop)
    · intro hends' z hz
      have hnone : edges.countP isLoop = 0 :=
        List.countP_eq_zero.2 fun e he hloop => hends' e he (beq_iff_eq.1 hloop)
      refine (hcost z hz).trans ?_
      rw [hnone, Nat.cast_zero, add_zero]
      rfl

theorem cost_maxCut_repeated : [(0, 1), (1, 0), (2, 2)] ≠ [] ∧
    (∀ e ∈ [(0, 1), (1, 0), (2, 2)], e.1 < 3 ∧ e.2 < 3) ∧ ∃ (clauses : List (Clause ℝ)) (a : AlternatingAnsatz ℝ),
      Clause.maxCut? 3 [(0, 1), (1, 0), (2, 2)] = some clauses ∧ ofClauses clauses 2 100 10 = .ok a ∧
        a.label 3 = "011" ∧ a.cost 3 = 3 := by
  have hne : [(0, 1), (1, 0), (2, 2)] ≠ [] := by decide
  have hends : ∀ e ∈ [(0, 1), (1, 0), (2, 2)], e.1 < 3 ∧ e.2 < 3 := by decide
  obtain ⟨clauses, a, hclauses, ha, hcount, hcost, _⟩ := cost_maxCut hne hends 2 100 10
  have hlabel : a.label 3 = "011" := by
    rw [label, hcount]
    cbv
  refine ⟨hne, hends, clauses, a, hclauses, ha, hlabel, ?_⟩
  have hthree := (hcost 3 (by decide)).2
  rw [hlabel] at hthree
  have hcuts : [(0, 1), (1, 0), (2, 2)].countP (cutBy "011") = 2 := by decide
  have hloops : [(0, 1), (1, 0), (2, 2)].countP isLoop = 1 := by decide
  rw [hthree, hcuts, hloops]
  norm_num

/-- A loop at the second of two vertices, which no cut can cut, costs every basis state. -/
theorem cost_loop : ∃ (clauses : List (Clause ℝ)) (a : AlternatingAnsatz ℝ),
    Clause.maxCut? 2 [(0, 1), (1, 1)] = some clauses ∧ ofClauses clauses 1 1024 1000 = .ok a ∧
      a.label 0 = "00" ∧ [(0, 1), (1, 1)].countP (cutBy (a.label 0)) = 0 ∧ a.cost 0 = 1 ∧
      a.cost 0 ≠ ([(0, 1), (1, 1)].countP (cutBy (a.label 0)) : ℕ) := by
  have hends : ∀ e ∈ [(0, 1), (1, 1)], e.1 < 2 ∧ e.2 < 2 := by decide
  have hlabel : Basis.label 2 0 = "00" := by cbv
  have hcuts : [(0, 1), (1, 1)].countP (cutBy "00") = 0 := by decide
  have hloops : [(0, 1), (1, 1)].countP isLoop = 1 := by decide
  have hcost : costOf (Clause.ofEdges 2 [(0, 1), (1, 1)]) 2 0 = 1 := by
    rw [costOf_ofEdges (by decide) hends, hlabel, hcuts, hloops]
    norm_num
  have hnone : [(0, 1), (1, 1)].countP (cutBy (Basis.label 2 0)) = 0 := by rw [hlabel, hcuts]
  refine ⟨_, _, Clause.maxCut?_eq hends, ofClauses_ofEdges (by decide) hends, hlabel, hnone, hcost, fun hsame => ?_⟩
  have habsurd : (1 : ℝ) = (0 : ℕ) := hcost.symm.trans (hsame.trans (congrArg Nat.cast hnone))
  norm_num at habsurd

end AlternatingAnsatz
end QuantumCircuits
end
