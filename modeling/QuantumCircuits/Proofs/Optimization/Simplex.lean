import Mathlib
import QuantumCircuits.Optimization.Simplex
import QuantumCircuits.Proofs.Number.Exact
import QuantumCircuits.Proofs.Success

/-! Searches by a simplex. Every vertex is a point with its own cost, whatever is done with the worst one, and the
best vertex found so far is given up for a cheaper one only. So a search reports a cost that some point has, which
is at most the cost of each point that it started from. -/

namespace QuantumCircuits.Simplex

variable {d : ℕ}

section Points

variable {x y : List ℝ} {points : List (List ℝ)}

theorem length_add (hx : x.length = d) (hy : y.length = d) : (add x y).length = d := by
  rw [add, List.length_zipWith, hx, hy, min_self]

theorem length_sub (hx : x.length = d) (hy : y.length = d) : (sub x y).length = d := by
  rw [sub, List.length_zipWith, hx, hy, min_self]

theorem length_scale (a : ℝ) (hx : x.length = d) : (scale a x).length = d := by
  rw [scale, List.length_map, hx]

theorem length_along (a : ℝ) (hx : x.length = d) (hy : y.length = d) : (along a x y).length = d :=
  length_add hx (length_scale a (length_sub hy hx))

theorem length_centroid (hne : points ≠ []) (h : ∀ p ∈ points, p.length = d) : (centroid points).length = d := by
  obtain ⟨p, rest, rfl⟩ := List.exists_cons_of_ne_nil hne
  obtain ⟨hp, hrest⟩ := List.forall_mem_cons.1 h
  have hsum : (rest.foldl add p).length = d := by
    clear hne h
    induction rest generalizing p with
    | nil => exact hp
    | cons q rest ih =>
      obtain ⟨hq, hrest⟩ := List.forall_mem_cons.1 hrest
      exact ih (add p q) (length_add hp hq) hrest
  exact length_scale _ hsum

end Points

variable {cost : List ℝ → Except Fault ℝ}

def HasCosts (cost : List ℝ → Except Fault ℝ) (d : ℕ) : Prop := ∀ p, p.length = d → ∃ x, cost p = .ok x

structure Vertex.Evaluated (cost : List ℝ → Except Fault ℝ) (d : ℕ) (v : Vertex ℝ) : Prop where
  length : v.point.length = d
  cost_eq : cost v.point = .ok v.cost

section Moves

variable (hcost : HasCosts cost d)

include hcost

theorem succeeds_evaluate {p : List ℝ} (hp : p.length = d) :
    Succeeds (evaluate cost p) fun v => v.point = p ∧ v.Evaluated cost d := by
  obtain ⟨x, hx⟩ := hcost p hp
  exact ⟨⟨p, x⟩, bind_eq_ok_iff.2 ⟨x, hx, rfl⟩, rfl, hp, hx⟩

theorem succeeds_chooseMove (best secondWorst : Vertex ℝ) {worst : Vertex ℝ} {centre : List ℝ}
    (hcentre : centre.length = d) (hworst : worst.point.length = d) :
    Succeeds (chooseMove cost best secondWorst worst centre) fun move =>
      ∀ v, move = .replace v → v.Evaluated cost d := by
  have hreplace {v : Vertex ℝ} (hv : v.Evaluated cost d) : ∀ u, Move.replace v = .replace u → u.Evaluated cost d := by
    rintro u ⟨⟩
    exact hv
  have hshrink : ∀ u, (Move.shrink : Move ℝ) = .replace u → u.Evaluated cost d := nofun
  have hreflected := length_add hcentre (length_sub hcentre hworst)
  unfold chooseMove
  refine (succeeds_evaluate hcost hreflected).bind fun reflected hr => ?_
  obtain ⟨_, hr⟩ := hr
  split
  · exact .pure (hreplace hr)
  · next hbetween =>
    split
    · refine (succeeds_evaluate hcost (length_along _ hcentre hr.length)).bind fun expanded he => ?_
      split
      · exact .pure (hreplace he.2)
      · exact .pure (hreplace hr)
    · next hbest =>
      split
      · split
        · refine (succeeds_evaluate hcost (length_along _ hcentre hr.length)).bind fun outside ho => ?_
          split
          · exact .pure (hreplace ho.2)
          · exact .pure hshrink
        · refine (succeeds_evaluate hcost (length_along _ hcentre hworst)).bind fun inside hi => ?_
          split
          · exact .pure (hreplace hi.2)
          · exact .pure hshrink
      · next hsecond =>
        -- Costs are ordered, so that the three cases before leave nothing.
        exact absurd (by simp [not_le.1 hsecond, not_lt.1 hbest]) hbetween

theorem succeeds_shrink {vertices : List (Vertex ℝ)} (h : ∀ v ∈ vertices, v.Evaluated cost d) :
    Succeeds (shrink cost vertices) fun moved =>
      moved.length = vertices.length ∧ ∀ v ∈ moved, v.Evaluated cost d := by
  cases vertices with
  | nil => exact .pure ⟨rfl, List.forall_mem_nil _⟩
  | cons first rest =>
    obtain ⟨hfirst, hrest⟩ := List.forall_mem_cons.1 h
    have hmoved : ∀ v ∈ rest, Succeeds (evaluate cost (along (Scalar.half 1) first.point v.point)) fun u =>
        u.Evaluated cost d := fun v hv =>
      (succeeds_evaluate hcost (length_along _ hfirst.length (hrest v hv).length)).mono fun _ => And.right
    refine (Succeeds.mapM hmoved).bind fun moved hall => .pure ⟨congrArg Nat.succ hall.length_eq.symm, ?_⟩
    refine List.forall_mem_cons.2 ⟨hfirst, fun u hu => ?_⟩
    obtain ⟨_, _, hu⟩ := exists_of_forall₂_right hall u hu
    exact hu

end Moves

section Best

variable {vertices : List (Vertex ℝ)}

theorem exists_sort (hne : vertices ≠ []) :
    ∃ first rest, sort vertices = first :: rest ∧ first ∈ vertices ∧ ∀ v ∈ vertices, first.cost ≤ v.cost := by
  have hperm : (sort vertices).Perm vertices := List.mergeSort_perm _ _
  have hsorted : (sort vertices).Pairwise fun a b => a.cost ≤ b.cost := by
    refine (List.pairwise_mergeSort (fun a b c hab hbc => ?_) (fun a b => ?_) vertices).imp fun hab => ?_
    · simp only [Bool.not_eq_true', decide_eq_false_iff_not, not_lt] at hab hbc ⊢
      exact hab.trans hbc
    · simp only [Bool.or_eq_true, Bool.not_eq_true', decide_eq_false_iff_not, not_lt]
      exact le_total a.cost b.cost
    · simpa using hab
  obtain ⟨first, rest, hsort⟩ := List.exists_cons_of_ne_nil fun hnil => hne (List.perm_nil.1 (hnil ▸ hperm.symm))
  rw [hsort] at hperm hsorted
  refine ⟨first, rest, hsort, hperm.mem_iff.1 List.mem_cons_self, fun v hv => ?_⟩
  rcases List.mem_cons.1 (hperm.mem_iff.2 hv) with rfl | hv
  · exact le_rfl
  · exact List.rel_of_pairwise_cons hsorted hv

theorem updateBest_some (b first : Vertex ℝ) (rest : List (Vertex ℝ)) :
    updateBest (some b) (first :: rest) = some (if first.cost < b.cost then first else b) := by
  have hfinite : equallyInfinite first.cost b.cost = false := rfl
  simp only [updateBest, hfinite, Bool.or_false, decide_eq_true_eq]
  split <;> rfl

theorem updateBest_none (first : Vertex ℝ) (rest : List (Vertex ℝ)) :
    updateBest none (first :: rest) = some first := if_pos le_rfl

/-- All vertices are points with their costs, and the best vertex found so far is no worse than any of them. -/
structure Search.Records (cost : List ℝ → Except Fault ℝ) (d : ℕ) (s : Search ℝ) (best : Vertex ℝ) : Prop where
  vertices : ∀ v ∈ s.vertices, v.Evaluated cost d
  several : 2 ≤ s.vertices.length
  found : s.best = some best
  evaluated : best.Evaluated cost d
  least : ∀ v ∈ s.vertices, best.cost ≤ v.cost

variable {cost : List ℝ → Except Fault ℝ} {best : Vertex ℝ}

theorem exists_records_of_sort {old : Option (Vertex ℝ)} {iterations : ℕ} (hvertices : ∀ v ∈ vertices, v.Evaluated cost d)
    (hseveral : 2 ≤ vertices.length) (hold : ∀ b, old = some b → b.Evaluated cost d) :
    ∃ best, Search.Records cost d ⟨sort vertices, updateBest old (sort vertices), iterations⟩ best ∧
      ∀ b, old = some b → best.cost ≤ b.cost := by
  have hperm : (sort vertices).Perm vertices := List.mergeSort_perm _ _
  have hne : vertices ≠ [] := List.length_pos_iff.1 (by omega)
  obtain ⟨first, rest, hsort, hmem, hfirst⟩ := exists_sort hne
  have hrecords {best : Vertex ℝ} (hfound : updateBest old (sort vertices) = some best) (heval : best.Evaluated cost d)
      (hle : best.cost ≤ first.cost) :
      Search.Records cost d ⟨sort vertices, updateBest old (sort vertices), iterations⟩ best :=
    ⟨fun v hv => hvertices v (hperm.mem_iff.1 hv), hperm.length_eq ▸ hseveral, hfound, heval,
      fun v hv => hle.trans (hfirst v (hperm.mem_iff.1 hv))⟩
  cases old with
  | none =>
    have hfound : updateBest none (sort vertices) = some first := by rw [hsort, updateBest_none]
    exact ⟨first, hrecords hfound (hvertices first hmem) le_rfl, nofun⟩
  | some b =>
    have hfound := updateBest_some b first rest
    rw [← hsort] at hfound
    by_cases hlt : first.cost < b.cost
    · rw [if_pos hlt] at hfound
      refine ⟨first, hrecords hfound (hvertices first hmem) le_rfl, ?_⟩
      rintro _ ⟨⟩
      exact hlt.le
    · rw [if_neg hlt] at hfound
      refine ⟨b, hrecords hfound (hold b rfl) (not_lt.1 hlt), ?_⟩
      rintro _ ⟨⟩
      exact le_rfl

end Best

section Runs

variable {s : Search ℝ} {best : Vertex ℝ} (hcost : HasCosts cost d)

include hcost

theorem Search.Records.succeeds_step (h : s.Records cost d best) : Succeeds (step cost s) fun t =>
    t.iterations = s.iterations + 1 ∧ ∃ better, t.Records cost d better ∧ better.cost ≤ best.cost := by
  have hnext {moved : List (Vertex ℝ)} (hmoved : ∀ v ∈ moved, v.Evaluated cost d) (hseveral : 2 ≤ moved.length) :
      ∃ better, Search.Records cost d ⟨sort moved, updateBest s.best (sort moved), s.iterations + 1⟩ better ∧
        better.cost ≤ best.cost := by
    have hold : ∀ b, s.best = some b → b.Evaluated cost d := by
      intro b hb
      obtain rfl := Option.some_inj.1 (h.found.symm.trans hb)
      exact h.evaluated
    obtain ⟨better, hrecords, hle⟩ := exists_records_of_sort hmoved hseveral hold
    exact ⟨better, hrecords, hle best h.found⟩
  have hkept : ∀ v ∈ s.vertices.dropLast, v.Evaluated cost d := fun v hv => h.vertices v (List.mem_of_mem_dropLast hv)
  have hcount : s.vertices.dropLast.length + 1 = s.vertices.length := by
    have hseveral := h.several
    rw [List.length_dropLast]
    omega
  unfold step
  split
  · next first tail secondWorst worst hfirst hsecond hworst =>
    have hcentre : (centroid (s.vertices.dropLast.map Vertex.point)).length = d := by
      refine length_centroid ?_ fun p hp => ?_
      · intro hnil
        rw [List.map_eq_nil_iff.1 hnil] at hsecond
        cases hsecond
      · obtain ⟨v, hv, rfl⟩ := List.mem_map.1 hp
        exact (hkept v hv).length
    have hworst := h.vertices worst (List.mem_of_getLast? hworst)
    refine (succeeds_chooseMove hcost first secondWorst hcentre hworst.length).bind fun move hmove => ?_
    cases move with
    | replace v =>
      refine .pure ⟨rfl, hnext ?_ ?_⟩
      · intro u hu
        rcases List.mem_append.1 hu with hu | hu
        · exact hkept u hu
        · obtain rfl := List.mem_singleton.1 hu
          exact hmove u rfl
      · rw [List.length_append, List.length_singleton, hcount]
        exact h.several
    | shrink =>
      refine (succeeds_shrink hcost h.vertices).bind fun moved ⟨hlength, hmoved⟩ => .pure ⟨rfl, hnext hmoved ?_⟩
      rw [hlength]
      exact h.several
  · next hnone =>
    -- Of two vertices or more, there are a first, a last and one before the last.
    have hne : s.vertices ≠ [] := List.length_pos_iff.1 (by have hseveral := h.several; omega)
    have hkeptNe : s.vertices.dropLast ≠ [] := List.length_pos_iff.1 (by have hseveral := h.several; omega)
    obtain ⟨first, tail, hfirst⟩ := List.exists_cons_of_ne_nil hne
    exact absurd (List.getLast?_eq_some_getLast hne)
      (hnone first tail _ _ hfirst (List.getLast?_eq_some_getLast hkeptNe))

theorem Search.Records.succeeds_steps (h : s.Records cost d best) (n : ℕ) : Succeeds (steps cost n s) fun t =>
    t.iterations ≤ s.iterations + n ∧ ∃ better, t.Records cost d better ∧ better.cost ≤ best.cost := by
  induction n generalizing s best with
  | zero => exact .pure ⟨le_rfl, best, h, le_rfl⟩
  | succ n ih =>
    rw [steps]
    split
    · exact .pure ⟨Nat.le_add_right _ _, best, h, le_rfl⟩
    · refine (h.succeeds_step hcost).bind fun t ⟨hcount, better, ht, hle⟩ => ?_
      refine (ih ht).mono fun u ⟨hu, least, hrecords, hleast⟩ => ?_
      exact ⟨by omega, least, hrecords, hleast.trans hle⟩

theorem succeeds_minimize {points : List (List ℝ)} (hpoints : ∀ p ∈ points, p.length = d) (hseveral : 2 ≤ points.length)
    (maxSteps : ℕ) : Succeeds (minimize cost points maxSteps) fun found =>
      found.1.Evaluated cost d ∧ found.2 ≤ maxSteps ∧ ∀ p ∈ points, ∃ x, cost p = .ok x ∧ found.1.cost ≤ x := by
  have hevaluate : ∀ p ∈ points, Succeeds (evaluate cost p) fun v => v.point = p ∧ v.Evaluated cost d :=
    fun p hp => succeeds_evaluate hcost (hpoints p hp)
  refine (Succeeds.mapM hevaluate).bind fun vertices hall => ?_
  have hvertices : ∀ v ∈ vertices, v.Evaluated cost d := fun v hv =>
    let ⟨_, _, _, hv⟩ := exists_of_forall₂_right hall v hv
    hv
  have hnone : ∀ b, (none : Option (Vertex ℝ)) = some b → b.Evaluated cost d := nofun
  obtain ⟨best, hbest, _⟩ := exists_records_of_sort hvertices (hall.length_eq ▸ hseveral) hnone
  refine (hbest.succeeds_steps hcost maxSteps).bind fun final ⟨hcount, better, hfinal, hle⟩ => ?_
  rw [hfinal.found]
  refine .pure ⟨hfinal.evaluated, by simpa using hcount, fun p hp => ?_⟩
  obtain ⟨v, hv, hpoint, heval⟩ := exists_of_forall₂_right hall.flip p hp
  refine ⟨v.cost, hpoint ▸ heval.cost_eq, hle.trans (hbest.least v ?_)⟩
  exact (List.mergeSort_perm vertices _).mem_iff.2 hv

end Runs
end QuantumCircuits.Simplex
