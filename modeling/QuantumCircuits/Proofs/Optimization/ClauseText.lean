import Mathlib
import QuantumCircuits.Proofs.Optimization.MaxCut

/-! Clauses from text. A clause is read and printed symbol by symbol in the order in which a label is printed, so that
whether a basis state satisfies it can be read off the two texts, and so can every cost. -/

noncomputable section
namespace QuantumCircuits

namespace Clause
open QuantumCircuits.Basis

variable {R : Type} {text : String} {weight : R} {c : Clause R} {symbols : List Char} {pattern : List (Option Bool)}
  {values : List Bool}

def IsSymbol (ch : Char) : Prop := ch = '0' ∨ ch = '1' ∨ ch = 'X' ∨ ch = 'x'

/-- A cross admits every digit and another symbol only itself. -/
def Admits (symbol digit : Char) : Prop := symbol = 'X' ∨ symbol = 'x' ∨ symbol = digit

instance (symbol digit : Char) : Decidable (Admits symbol digit) :=
  inferInstanceAs (Decidable (symbol = 'X' ∨ symbol = 'x' ∨ symbol = digit))

def Matches (text label : String) : Prop := List.Forall₂ Admits text.toList label.toList

instance (text label : String) : Decidable (Matches text label) :=
  inferInstanceAs (Decidable (List.Forall₂ Admits text.toList label.toList))

def upper (ch : Char) : Char := if ch = 'x' then 'X' else ch

section Symbols

variable {ch : Char} {p : Option Bool}

theorem isSymbol_iff : IsSymbol ch ↔ ∃ p, symbol? ch = some p := by
  unfold IsSymbol symbol?
  split <;> simp_all

theorem symbol_of_symbol? (h : symbol? ch = some p) : symbol p = upper ch := by
  unfold symbol? at h
  split at h <;> cases h <;> rfl

theorem admits_digit_iff (h : symbol? ch = some p) (v : Bool) : Admits ch (digit v) ↔ p.all (· == v) = true := by
  unfold symbol? at h
  split at h <;> cases h <;> cases v <;> decide

end Symbols

theorem parse_eq_ok_iff : parse text weight = .ok c ↔
    List.Forall₂ (fun ch p => symbol? ch = some p) text.toList c.pattern ∧ c.weight = weight := by
  obtain ⟨pattern, own⟩ := c
  rw [← mapM_eq_some_iff, parse]
  split
  · next read h => simp [h, eq_comm]
  · next h => simp [h]

theorem exists_parse_iff : (∃ c, parse text weight = .ok c) ↔ ∀ ch ∈ text.toList, IsSymbol ch := by
  constructor
  · rintro ⟨c, h⟩ ch hch
    obtain ⟨p, _, hp⟩ := exists_of_forall₂_right (parse_eq_ok_iff.1 h).1.flip ch hch
    exact isSymbol_iff.2 ⟨p, hp⟩
  · intro h
    obtain ⟨pattern, hpattern⟩ := exists_forall₂ fun ch hch => isSymbol_iff.1 (h ch hch)
    exact ⟨⟨pattern, weight⟩, parse_eq_ok_iff.2 ⟨hpattern, rfl⟩⟩

theorem parse_of_not_symbols (h : ¬ ∀ ch ∈ text.toList, IsSymbol ch) :
    parse text weight = .error (.state (.clauseText text)) := by
  have hrefused : ¬ ∃ c, parse text weight = .ok c := mt exists_parse_iff.1 h
  unfold parse at hrefused ⊢
  split
  · next pattern hread => exact absurd ⟨⟨pattern, weight⟩, by rw [hread]⟩ hrefused
  · rfl

theorem text_of_parse (h : parse text weight = .ok c) : c.text = text.map upper := by
  have hsymbols : c.pattern.map symbol = text.toList.map upper :=
    map_eq_map_of_forall₂ (parse_eq_ok_iff.1 h).1 fun _ _ _ hp => symbol_of_symbol? hp
  rw [Clause.text, hsymbols, ← String.toList_map, String.ofList_toList]

theorem forall₂_admits_iff (h : List.Forall₂ (fun ch p => symbol? ch = some p) symbols pattern) :
    List.Forall₂ Admits symbols (values.map digit) ↔
      List.Forall₂ (fun p v => p.all (· == v) = true) pattern values := by
  induction h generalizing values with
  | nil => cases values <;> simp
  | cons hp _ ih =>
    cases values with
    | nil => simp
    | cons v values => rw [List.map_cons, List.forall₂_cons, List.forall₂_cons, admits_digit_iff hp, ih]

theorem satisfied_iff_forall₂ (hlength : c.length = values.length) :
    c.satisfied values = true ↔ List.Forall₂ (fun p v => p.all (· == v) = true) c.pattern values := by
  rw [List.forall₂_iff_zip, satisfied, List.all_eq_true]
  exact ⟨fun h => ⟨hlength, fun {p v} hpair => h (p, v) hpair⟩, fun h ⟨_, _⟩ hpair => h.2 hpair⟩

end Clause

namespace AlternatingAnsatz
open QuantumCircuits.Basis Clause

variable {R : Type} {n z : ℕ} {c : Clause R} {text : String} {weight : R}

theorem satisfied_assignment_iff (hparse : parse text weight = .ok c) (hn : 0 < n) (hlength : c.length = n)
    (hz : z < 2 ^ n) : c.satisfied (assignment n z) = true ↔ Matches text (Basis.label n z) := by
  have hdigits : (Basis.label n z).toList = (assignment n z).map digit := by
    rw [toList_label hn hz, assignment, List.map_map]
    rfl
  rw [Matches, hdigits, forall₂_admits_iff (parse_eq_ok_iff.1 hparse).1]
  exact satisfied_iff_forall₂ (hlength.trans (length_assignment n z).symm)

variable [Scalar R] {texts : List (String × R)} {clauses : List (Clause R)}

def matchingWeights (texts : List (String × R)) (label : String) : List R :=
  (texts.filter fun t => Matches t.1 label).map Prod.snd

theorem costOf_eq_sum (hparse : texts.mapM (fun t => parse t.1 t.2) = .ok clauses) (hn : 0 < n)
    (hlength : ∀ c ∈ clauses, c.length = n) (hz : z < 2 ^ n) :
    costOf clauses n z = Scalar.sum (matchingWeights texts (Basis.label n z)) := by
  rw [costOf]
  congr 1
  have hall := mapM_eq_ok_iff.1 hparse
  clear hparse
  induction hall with
  | nil => rfl
  | @cons t c texts clauses ht _ ih =>
    obtain ⟨hc, hclauses⟩ := List.forall_mem_cons.1 hlength
    have hsame : c.satisfied (assignment n z) = decide (Matches t.1 (Basis.label n z)) :=
      Bool.eq_iff_iff.2 ((satisfied_assignment_iff ht hn hc hz).trans decide_eq_true_iff.symm)
    have hweight : c.weight = t.2 := (parse_eq_ok_iff.1 ht).2
    rw [matchingWeights, List.filter_cons, List.filter_cons, hsame]
    split
    · rw [List.map_cons, List.map_cons, hweight, ih hclauses, matchingWeights]
    · exact ih hclauses

theorem get_costMatrix (clauses : List (Clause R)) (hz : z < 2 ^ n) :
    (costMatrix clauses n).get z z = Cx.ofReal (costOf clauses n z) := by
  have hcount : ((indices n).map fun z => Cx.ofReal (costOf clauses n z)).length = 2 ^ n := by
    rw [List.length_map, indices, List.length_range]
  rw [costMatrix, DenseMatrix.diagonal, DenseMatrix.get_ofFn _ (hcount.symm ▸ hz) (hcount.symm ▸ hz), if_pos rfl,
    List.getD_eq_getElem?_getD, List.getElem?_map, indices, List.getElem?_range hz]
  rfl

theorem evolution_mem_circuitOf {cost hamiltonian : DenseMatrix (Cx ℝ)} {params : List (Param ℝ × Param ℝ)} {time : Param ℝ}
    {wires : List ℕ} : Step.gate (.evolution hamiltonian time) wires ∈ (circuitOf cost n params).steps ↔
      hamiltonian = cost ∧ wires = List.range n ∧ ∃ p ∈ params, p.1 = time := by
  constructor
  · intro h
    rcases List.mem_append.1 h with h | h
    · obtain ⟨_, _, heq⟩ := List.mem_map.1 h
      cases heq
    · obtain ⟨p, hp, h⟩ := List.mem_flatMap.1 h
      rcases List.mem_cons.1 h with heq | h
      · cases heq
        exact ⟨rfl, rfl, p, hp, rfl⟩
      · obtain ⟨_, _, heq⟩ := List.mem_map.1 h
        cases heq
  · rintro ⟨rfl, rfl, p, hp, rfl⟩
    exact List.mem_append_right _ (List.mem_flatMap.2 ⟨p, hp, List.mem_cons_self⟩)

/-- What the texts of clauses say about a problem. Exactly the texts of digits and crosses are read, and they are printed
with every cross in upper case. Any problem over clauses that were read from texts of one positive length is accepted,
a basis state costs the sum of the weights of the texts that match its label, and each layer evolves under
a matrix with these costs on its diagonal. -/
theorem cost_reads_label :
    (∀ (text : String) (weight : ℝ), ((∃ c, parse text weight = .ok c) ↔ ∀ ch ∈ text.toList, IsSymbol ch) ∧
      ((¬ ∀ ch ∈ text.toList, IsSymbol ch) → parse text weight = .error (.state (.clauseText text))) ∧
      ∀ c, parse text weight = .ok c → c.text = text.map upper ∧ c.weight = weight) ∧
    ∀ (texts : List (String × ℝ)) (clauses : List (Clause ℝ)) (n : ℕ), texts ≠ [] →
      texts.mapM (fun t => parse t.1 t.2) = .ok clauses → 0 < n → (∀ c ∈ clauses, c.length = n) →
      ∀ layers shots maxSteps : ℕ, ∃ a, ofClauses clauses layers shots maxSteps = .ok a ∧ a.variableCount = n ∧
        (∀ z < 2 ^ n, (a.label z).length = n ∧ a.cost z = (matchingWeights texts (a.label z)).sum) ∧
        (∀ hamiltonian time wires, Step.gate (.evolution hamiltonian time) wires ∈ a.template.steps →
          wires = List.range n ∧ ∀ z < 2 ^ n, hamiltonian.get z z = .ofReal (a.cost z)) ∧
        ∀ i < layers, ∃ hamiltonian,
          Step.gate (.evolution hamiltonian ((gammaFamily layers).get i)) (List.range n) ∈ a.template.steps := by
  refine ⟨fun text weight => ⟨exists_parse_iff, parse_of_not_symbols, fun c h => ⟨text_of_parse h, ?_⟩⟩, ?_⟩
  · exact (parse_eq_ok_iff.1 h).2
  · intro texts clauses n hne hparse hn hlength layers shots maxSteps
    have hclauses : clauses ≠ [] := by
      rintro rfl
      exact hne (List.forall₂_nil_right_iff.1 (mapM_eq_ok_iff.1 hparse))
    refine ⟨assembled clauses n layers shots maxSteps, ?_, rfl, fun z hz => ⟨length_label hn hz, ?_⟩, ?_, fun i hi => ?_⟩
    · exact ofClauses_eq_ok_iff.2 ⟨n, hn, hclauses, hlength, rfl⟩
    · exact (costOf_eq_sum hparse hn hlength hz).trans (Scalar.sum_real _)
    · intro hamiltonian time wires hmem
      obtain ⟨rfl, hwires, _⟩ := evolution_mem_circuitOf.1 hmem
      exact ⟨hwires, fun z hz => get_costMatrix clauses hz⟩
    · refine ⟨costMatrix clauses n, evolution_mem_circuitOf.2 ⟨rfl, rfl, layerTokens layers i, ?_, rfl⟩⟩
      exact List.mem_map_of_mem (List.mem_range.2 hi)

def crosses : List (String × ℝ) := [("1x0", -1), ("X1X", Scalar.two), ("110", Scalar.two)]

theorem cost_reads_crosses : ∃ clauses a, crosses ≠ [] ∧ crosses.mapM (fun t => parse t.1 t.2) = .ok clauses ∧ 0 < 3 ∧
    (∀ c ∈ clauses, c.length = 3) ∧ ofClauses clauses 2 1024 1000 = .ok a ∧
    a.label 4 = "100" ∧ a.cost 4 = -1 ∧ a.label 6 = "110" ∧ a.cost 6 = 3 ∧
    (∃ c : Clause ℝ, parse "1x0" 1 = .ok c ∧ c.text = "1X0") ∧ parse "1Y" (1 : ℝ) = .error (.state (.clauseText "1Y")) := by
  have hne : crosses ≠ [] := List.cons_ne_nil _ _
  have hparse : crosses.mapM (fun t => parse t.1 t.2) = .ok [⟨[some true, none, some false], -1⟩,
      ⟨[none, some true, none], Scalar.two⟩, ⟨[some true, some true, some false], Scalar.two⟩] := rfl
  have hlength : ∀ c ∈ [⟨[some true, none, some false], -1⟩, ⟨[none, some true, none], Scalar.two⟩,
      ⟨[some true, some true, some false], (Scalar.two : ℝ)⟩], Clause.length c = 3 := by
    simp [Clause.length]
  obtain ⟨htext, hproblem⟩ := cost_reads_label
  obtain ⟨a, ha, hn, hcost, _⟩ := hproblem crosses _ 3 hne hparse (by decide) hlength 2 1024 1000
  have hfour : a.label 4 = "100" := by
    rw [label, hn]
    cbv
  have hsix : a.label 6 = "110" := by
    rw [label, hn]
    cbv
  have hone : matchingWeights crosses "100" = [-1] := rfl
  have hall : matchingWeights crosses "110" = [-1, Scalar.two, Scalar.two] := rfl
  have hread : parse "1x0" (1 : ℝ) = .ok ⟨[some true, none, some false], 1⟩ := rfl
  have hprinted : "1x0".map upper = "1X0" := by
    rw [← String.toList_inj, String.toList_map]
    decide
  have hforeign : ¬ ∀ ch ∈ "1Y".toList, IsSymbol ch := by simp [IsSymbol]
  refine ⟨_, a, hne, hparse, by decide, hlength, ha, hfour, ?_, hsix, ?_, ⟨_, hread, ?_⟩, (htext "1Y" 1).2.1 hforeign⟩
  · rw [(hcost 4 (by decide)).2, hfour, hone, List.sum_singleton]
  · rw [(hcost 6 (by decide)).2, hsix, hall, Scalar.two_real]
    norm_num
  · exact ((htext "1x0" 1).2.2 _ hread).1.trans hprinted

end AlternatingAnsatz
end QuantumCircuits
end
