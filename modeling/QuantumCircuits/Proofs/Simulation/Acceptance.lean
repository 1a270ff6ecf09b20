import Mathlib
import QuantumCircuits.Proofs.Circuit.Tokens
import QuantumCircuits.Proofs.Simulation.LoweredGates

/-! Which circuits have an exact evolution, and the fault with which each of the others is refused. The
lowering fails at a gate and nowhere else, with a fault that the gate and the controls above it decide,
so the gates inside an operation tell how its lowering ends. -/

namespace QuantumCircuits

section Gates

variable {R : Type}

def Gate.fault? : Gate R × Bool → Option Fault
  | (.noise, true) => some (.notUnitary "noise")
  | (.reset, true) => some (.notUnitary "reset")
  | (g, _) => g.tokenNames.head?.map .unbound

namespace Gate

theorem fault?_eq_none_iff {g : Gate R × Bool} :
    Gate.fault? g = none ↔ g.1.tokenNames = [] ∧ g ≠ (.noise, true) ∧ g ≠ (.reset, true) := by
  obtain ⟨g, b⟩ := g
  unfold fault?
  split <;> simp_all [tokenNames, param?]

theorem fault?_eq_some {g : Gate R × Bool} {fault : Fault} (h : Gate.fault? g = some fault) :
    (∃ t ∈ g.1.tokenNames, fault = .unbound t) ∨ (g = (.noise, true) ∧ fault = .notUnitary "noise") ∨
      g = (.reset, true) ∧ fault = .notUnitary "reset" := by
  obtain ⟨g, b⟩ := g
  unfold fault? at h
  split at h
  · next same => exact .inr (.inl ⟨same, (Option.some.inj h).symm⟩)
  · next same => exact .inr (.inr ⟨same, (Option.some.inj h).symm⟩)
  · next same =>
    obtain ⟨t, ht, rfl⟩ := Option.map_eq_some_iff.1 h
    obtain ⟨rfl, _⟩ := Prod.mk.inj same
    exact .inl ⟨t, List.mem_of_mem_head? ht, rfl⟩

variable {g : Gate R}

theorem fault?_of_ne (hnoise : g ≠ .noise) (hreset : g ≠ .reset) (controlled : Bool) :
    Gate.fault? (g, controlled) = g.tokenNames.head?.map .unbound := by
  cases g <;> first | rfl | contradiction

theorem isUnitary_iff : g.isUnitary = true ↔ g ≠ .reset := by
  cases g <;> simp [isUnitary]

variable [Scalar R]

theorem WellFormed.exists_adjustment (h : g.WellFormed) (hreset : g ≠ .reset) (adjoint : Bool) :
    ∃ a, (if adjoint then g.adjoint = .ok a else a = g) ∧ a.tokenNames = g.tokenNames ∧ a.isUnitary = true := by
  have hunitary := isUnitary_iff.2 hreset
  cases adjoint with
  | true =>
    obtain ⟨a, ha⟩ := adjoint_of_isUnitary hunitary
    exact ⟨a, ha, tokenNames_adjoint ha, (h.adjoint ha).2.2.2⟩
  | false => exact ⟨g, rfl, rfl, hunitary⟩

theorem targetMatrix_eq_error [EigenSolver R] {t : String} (h : t ∈ g.tokenNames) :
    g.targetMatrix = .error (.unbound t) := by
  have hparam {θ : Param R} (hθ : t ∈ θ.tokenNames) : θ.resolve = .error (.unbound t) := by
    cases θ with
    | value v => cases hθ
    | token name c =>
      obtain rfl := List.mem_singleton.1 hθ
      rfl
  cases g with
  | angle kind θ =>
    rw [targetMatrix, hparam h]
    rfl
  | evolution m time =>
    rw [targetMatrix, hparam h]
    rfl
  | _ => cases h

end Gate

namespace Operation

variable {o : Operation R}

theorem mem_tokenNames_iff (controlled : Bool) {t : String} :
    t ∈ o.tokenNames ↔ ∃ g ∈ o.gates controlled, t ∈ g.1.tokenNames := by
  rw [tokenNames_eq_flatMap controlled, List.mem_flatMap]

theorem WellFormed.not_mem_gates [Scalar R] (h : o.WellFormed) : (.reset, true) ∉ o.gates false := by
  induction h with
  | primitive gate => simp [gates]
  | composite _ _ _ ih =>
    rw [gates_composite, List.mem_flatMap]
    rintro ⟨s, hs, hmem⟩
    exact ih s hs hmem
  | controlled _ unitary _ _ => exact fun hmem => Bool.false_ne_true ((isUnitary_iff true _).1 unitary _ hmem)
  | powered _ _ ih => exact ih
  | inverted _ _ ih => exact ih

end Operation

end Gates

namespace Instruction

section Outcome

variable {R : Type}

/-- What the lowering of gates ends in: instructions if no gate is refused, with a reset among them if
there is one among the gates, or else the fault of a gate that is refused. -/
inductive Outcome (gates : List (Gate R × Bool)) : Except Fault (List (Instruction R)) → Prop
  | lowered {is : List (Instruction R)} (accepted : ∀ g ∈ gates, Gate.fault? g = none)
    (resets : (∃ w, .reset w ∈ is) ↔ ∃ g ∈ gates, g.1 = .reset) : Outcome gates (.ok is)
  | refused {g : Gate R × Bool} {fault : Fault} (inside : g ∈ gates) (fails : Gate.fault? g = some fault) :
    Outcome gates (.error fault)

namespace Outcome

variable {gates others : List (Gate R × Bool)} {x y : Except Fault (List (Instruction R))}

theorem nil : Outcome ([] : List (Gate R × Bool)) (.ok []) :=
  .lowered (List.forall_mem_nil _) (by simp)

theorem append (hx : Outcome gates x) (hy : Outcome others y) :
    Outcome (gates ++ others) (do return (← x) ++ (← y)) := by
  cases hx with
  | refused inside fails => exact .refused (List.mem_append_left _ inside) fails
  | @lowered is accepted resets =>
    cases hy with
    | refused inside fails => exact .refused (List.mem_append_right _ inside) fails
    | @lowered js accepted' resets' =>
      change Outcome _ (.ok (is ++ js))
      refine .lowered (List.forall_mem_append.2 ⟨accepted, accepted'⟩) ?_
      simp only [List.mem_append, exists_or, or_and_right, resets, resets']

theorem isOk_iff (hx : Outcome gates x) : x.isOk = true ↔ ∀ g ∈ gates, Gate.fault? g = none := by
  cases hx with
  | lowered accepted _ => exact ⟨fun _ => accepted, fun _ => rfl⟩
  | refused inside fails => exact ⟨nofun, fun h => nomatch (h _ inside).symm.trans fails⟩

theorem congr (hx : Outcome gates x) (h : ∀ g, g ∈ gates ↔ g ∈ others) : Outcome others x := by
  cases hx with
  | refused inside fails => exact .refused ((h _).1 inside) fails
  | lowered accepted resets =>
    refine .lowered (fun g hg => accepted g ((h g).2 hg)) (resets.trans ?_)
    simp only [h]

theorem inSequence {α : Type} {gatesOf : α → List (Gate R × Bool)}
    {part : α → Except Fault (List (Instruction R))} {xs : List α} (h : ∀ x ∈ xs, Outcome (gatesOf x) (part x)) :
    Outcome (xs.flatMap gatesOf) (inSequence (xs.map part)) := by
  induction xs with
  | nil => exact .nil
  | cons x xs ih =>
    obtain ⟨hx, hxs⟩ := List.forall_mem_cons.1 h
    rw [List.flatMap_cons, List.map_cons, inSequence_cons]
    exact hx.append (ih hxs)

variable [Scalar R]

theorem repeated {e : ℕ} (he : 0 < e) (hx : Outcome gates x) : Outcome gates (do return repeated (← x) e) := by
  cases hx with
  | refused inside fails => exact .refused inside fails
  | @lowered body accepted resets =>
    change Outcome _ (.ok (Instruction.repeated body e))
    refine .lowered accepted (Iff.trans (exists_congr fun w => ⟨fun hw => ?_, fun hw => ?_⟩) resets)
    · rcases mem_repeated hw with hw | ⟨p, _, same⟩
      · exact hw
      · cases same
    · have hbody : ∀ p, body ≠ [.gate p] := by
        rintro p rfl
        cases List.mem_singleton.1 hw
      rw [repeated_eq_flatten hbody]
      exact List.mem_flatten.2 ⟨body, List.mem_replicate.2 ⟨he.ne', rfl⟩, hw⟩

end Outcome

end Outcome

section Lowering

variable {R : Type} [Scalar R] [EigenSolver R] {wires : List ℕ} {controls : List (ℕ × Bool)} {adjoint : Bool}

theorem outcome_ofGate {g : Gate R} (hwell : g.WellFormed) (h : controls = [] → adjoint = true → g.isUnitary = true) :
    Outcome [(g, !controls.isEmpty)] (ofGate g wires controls adjoint) := by
  by_cases hnoise : g = .noise
  · subst hnoise
    cases controls with
    | nil => exact .lowered (List.forall_mem_singleton.2 rfl) (by simp)
    | cons c cs => exact .refused List.mem_cons_self rfl
  by_cases hreset : g = .reset
  · subst hreset
    cases controls with
    | nil =>
      have hforward : adjoint = false := Bool.eq_false_iff.2 fun hadjoint => Bool.false_ne_true (h rfl hadjoint)
      subst hforward
      exact .lowered (List.forall_mem_singleton.2 rfl) (by simp)
    | cons c cs => exact .refused List.mem_cons_self rfl
  obtain ⟨a, ha, htokens, hunitary⟩ := hwell.exists_adjustment hreset adjoint
  rw [ofGate_eq_bind hnoise hreset adjoint ha]
  cases hnames : g.tokenNames with
  | nil =>
    obtain ⟨m, hm⟩ := Gate.exists_targetMatrix (htokens.trans hnames) hunitary
    rw [hm]
    refine .lowered (List.forall_mem_singleton.2 (Gate.fault?_eq_none_iff.2 ⟨hnames, ?_, ?_⟩)) ?_
    · exact fun same => hnoise (Prod.mk.inj same).1
    · exact fun same => hreset (Prod.mk.inj same).1
    · simp [hreset]
  | cons t ts =>
    have hmatrix : a.targetMatrix = .error (.unbound t) :=
      Gate.targetMatrix_eq_error (htokens ▸ hnames ▸ List.mem_cons_self)
    rw [hmatrix]
    refine .refused List.mem_cons_self ?_
    rw [Gate.fault?_of_ne hnoise hreset, hnames]
    rfl

theorem outcome_ofOperation {o : Operation R} (hwell : o.WellFormed) (hlength : wires.length = o.arity)
    (h : controls = [] → adjoint = true → o.isUnitary = true) :
    Outcome (o.gates !controls.isEmpty) (ofOperation wires controls adjoint o) := by
  -- The flag and the controls change on the way down, so both are general.
  induction hwell generalizing wires controls adjoint with
  | primitive gate => exact outcome_ofGate gate h
  | @composite c _ fits _ ih =>
    have hsteps : ∀ s ∈ if adjoint then c.steps.reverse else c.steps,
        Outcome (s.operation.gates !controls.isEmpty)
          (ofOperation (outer wires s.wires) controls adjoint s.operation) := by
      intro s hs
      have hmem := mem_ordered_iff.1 hs
      refine ih s hmem ?_ fun hcontrols hadjoint => ?_
      · rw [outer, List.length_map, (fits s hmem).length]
      · have hunitary := h hcontrols hadjoint
        rw [Operation.isUnitary_composite, List.all_eq_true] at hunitary
        exact hunitary s hmem
    rw [ofOperation_composite]
    refine (Outcome.inSequence hsteps).congr fun g => ?_
    simp only [Operation.gates_composite, List.mem_flatMap, mem_ordered_iff]
  | @controlled o s _ unitary positive ih =>
    have hlong : (wires.take s.length).length = s.length := by
      rw [List.length_take, hlength, Operation.arity]
      omega
    have hnonempty : controls ++ (wires.take s.length).zip s.flags ≠ [] := by
      refine List.append_ne_nil_of_right_ne_nil _ (List.ne_nil_of_length_pos ?_)
      rw [List.length_zip, hlong]
      exact lt_min positive positive
    have hrest : (wires.drop s.length).length = o.arity := by
      rw [List.length_drop, hlength, Operation.arity, Nat.add_sub_cancel]
    have hinner : Outcome (o.gates !(controls ++ (wires.take s.length).zip s.flags).isEmpty)
        (ofOperation wires controls adjoint (.controlled o s)) := ih hrest fun hempty => absurd hempty hnonempty
    rw [List.isEmpty_eq_false_iff.2 hnonempty] at hinner
    exact hinner
  | powered _ exponent ih => exact (ih hlength h).repeated exponent
  | inverted _ unitary ih => exact ih hlength fun _ _ => unitary

theorem outcome_ofCircuit {c : Circuit R} (h : c.WellFormed) :
    Outcome ((Operation.composite c).gates false) (ofCircuit c) := by
  have houtcome : Outcome ((Operation.composite c).gates !([] : List (ℕ × Bool)).isEmpty)
      (ofOperation (List.range c.wires) [] false (.composite c)) :=
    outcome_ofOperation h List.length_range fun _ => nofun
  exact houtcome

end Lowering

section Exact

variable {R : Type} [Scalar R] {is : List (Instruction R)}

theorem exists_foldlM_exactStep (h : ∀ w, .reset w ∉ is) (s : State R) : ∃ t, is.foldlM exactStep s = .ok t := by
  induction is generalizing s with
  | nil => exact ⟨s, rfl⟩
  | cons i is ih =>
    have hrest : ∀ w, .reset w ∉ is := fun w hw => h w (List.mem_cons_of_mem _ hw)
    cases i with
    | gate p => exact ih hrest (p.apply s)
    | noise w => exact ih hrest s
    | reset w => exact absurd List.mem_cons_self (h w)

theorem foldlM_exactStep_of_reset {w : ℕ} (h : .reset w ∈ is) (s : State R) :
    is.foldlM exactStep s = .error (.notUnitary "reset") := by
  induction is generalizing s with
  | nil => cases h
  | cons i is ih =>
    have hrest (hne : i ≠ .reset w) : .reset w ∈ is := (List.mem_cons.1 h).resolve_left hne.symm
    cases i with
    | gate p => exact ih (hrest nofun) (p.apply s)
    | noise v => exact ih (hrest nofun) s
    | reset v => rfl

end Exact

end Instruction

namespace Circuit

section Faults

variable {R : Type} {c : Circuit R} {s : State R} {fault : Fault}

theorem mem_tokens_iff {t : String} :
    t ∈ c.tokens ↔ ∃ g ∈ (Operation.composite c).gates false, t ∈ g.1.tokenNames := by
  have hnames : t ∈ (Operation.composite c).tokenNames ↔ _ := Operation.mem_tokenNames_iff false
  exact mem_sortedNames.trans hnames

theorem tokens_eq_nil_iff : c.tokens = [] ↔ ∀ g ∈ (Operation.composite c).gates false, g.1.tokenNames = [] := by
  simp only [List.eq_nil_iff_forall_not_mem, mem_tokens_iff, not_exists, not_and]
  exact ⟨fun h g hg t => h t g hg, fun h t g hg => h g hg t⟩

theorem le_of_tokens_eq_cons {t : String} {ts : List String} (h : c.tokens = t :: ts) : ∀ u ∈ c.tokens, t ≤ u := by
  have hsorted : c.tokens.Pairwise (· ≤ ·) := pairwise_sortedNames _
  rw [h] at hsorted ⊢
  exact List.forall_mem_cons.2 ⟨le_rfl, (List.pairwise_cons.1 hsorted).1⟩

/-- Why a circuit does not evolve a state. Of the tokens that remain, the least one is reported. -/
inductive Refuses (c : Circuit R) (s : State R) : Fault → Prop
  | size (differs : s.qubits ≠ c.wires) : Refuses c s (.state (.circuitSize s.qubits c.wires))
  | token {t : String} (fits : s.qubits = c.wires) (remains : t ∈ c.tokens) (least : ∀ u ∈ c.tokens, t ≤ u) :
    Refuses c s (.unbound t)
  | noise (fits : s.qubits = c.wires) (bound : c.tokens = [])
    (inside : (.noise, true) ∈ (Operation.composite c).gates false) : Refuses c s (.notUnitary "noise")
  | reset {b : Bool} (fits : s.qubits = c.wires) (bound : c.tokens = [])
    (quiet : (.noise, true) ∉ (Operation.composite c).gates false)
    (inside : (.reset, b) ∈ (Operation.composite c).gates false) : Refuses c s (.notUnitary "reset")

structure Evolves (c : Circuit R) (s : State R) : Prop where
  fits : s.qubits = c.wires
  bound : c.tokens = []
  resets : ∀ g ∈ (Operation.composite c).gates false, g.1 ≠ .reset
  noise : (.noise, true) ∉ (Operation.composite c).gates false

theorem evolves_or_refuses (c : Circuit R) (s : State R) : c.Evolves s ∨ ∃ fault, c.Refuses s fault := by
  by_cases fits : s.qubits = c.wires
  · by_cases bound : c.tokens = []
    · by_cases noise : (.noise, true) ∈ (Operation.composite c).gates false
      · exact .inr ⟨_, .noise fits bound noise⟩
      · by_cases resets : ∀ g ∈ (Operation.composite c).gates false, g.1 ≠ .reset
        · exact .inl ⟨fits, bound, resets, noise⟩
        · push Not at resets
          obtain ⟨⟨g, b⟩, hg, rfl⟩ := resets
          exact .inr ⟨_, .reset fits bound noise hg⟩
    · obtain ⟨t, ts, htokens⟩ := List.exists_cons_of_ne_nil bound
      exact .inr ⟨_, .token fits (htokens ▸ List.mem_cons_self) (le_of_tokens_eq_cons htokens)⟩
  · exact .inr ⟨_, .size fits⟩

end Faults

section Exact

variable {R : Type} [Scalar R] [EigenSolver R] {c : Circuit R} {s : State R} {fault : Fault}

theorem WellFormed.ofCircuit_eq_error (h : c.WellFormed) (hfault : Instruction.ofCircuit c = .error fault) :
    (.noise, true) ∈ (Operation.composite c).gates false ∧ fault = .notUnitary "noise" ∨
      ∃ t ∈ c.tokens, fault = .unbound t := by
  have houtcome := Instruction.outcome_ofCircuit h
  rw [hfault] at houtcome
  cases houtcome with
  | @refused g _ inside fails =>
    obtain ⟨t, ht, same⟩ | ⟨rfl, same⟩ | ⟨rfl, same⟩ := Gate.fault?_eq_some fails
    · exact .inr ⟨t, mem_tokens_iff.2 ⟨g, inside, ht⟩, same⟩
    · exact .inl ⟨inside, same⟩
    · exact absurd inside (Operation.WellFormed.not_mem_gates h)

theorem WellFormed.ofCircuit_eq_ok {is : List (Instruction R)} (h : c.WellFormed)
    (his : Instruction.ofCircuit c = .ok is) :
    (.noise, true) ∉ (Operation.composite c).gates false ∧
      ((∃ w, .reset w ∈ is) ↔ ∃ g ∈ (Operation.composite c).gates false, g.1 = .reset) := by
  have houtcome := Instruction.outcome_ofCircuit h
  rw [his] at houtcome
  cases houtcome with
  | lowered accepted resets =>
    exact ⟨fun inside => (Gate.fault?_eq_none_iff.1 (accepted _ inside)).2.1 rfl, resets⟩

theorem WellFormed.exists_statevector (h : c.WellFormed) (hs : c.Evolves s) : ∃ t, c.statevector s = .ok t := by
  rw [statevector, prepare_of_bound hs.fits hs.bound]
  cases hlower : Instruction.ofCircuit c with
  | error fault =>
    obtain ⟨inside, _⟩ | ⟨t, ht, _⟩ := h.ofCircuit_eq_error hlower
    · exact absurd inside hs.noise
    · exact absurd (hs.bound ▸ ht) List.not_mem_nil
  | ok is =>
    refine Instruction.exists_foldlM_exactStep (fun w hw => ?_) s
    obtain ⟨g, hg, hreset⟩ := (h.ofCircuit_eq_ok hlower).2.1 ⟨w, hw⟩
    exact hs.resets g hg hreset

theorem WellFormed.statevector_of_refuses (h : c.WellFormed) (hs : c.Refuses s fault) :
    c.statevector s = .error fault := by
  cases hs with
  | size differs =>
    rw [statevector, prepare, if_pos differs]
    rfl
  | @token t fits remains least =>
    obtain ⟨u, us, htokens⟩ := List.exists_cons_of_ne_nil (List.ne_nil_of_mem remains)
    obtain rfl : u = t :=
      le_antisymm (le_of_tokens_eq_cons htokens t remains) (least u (htokens ▸ List.mem_cons_self))
    rw [statevector, prepare, if_neg (not_not.2 fits), htokens]
    rfl
  | noise fits bound inside =>
    rw [statevector, prepare_of_bound fits bound]
    cases hlower : Instruction.ofCircuit c with
    | ok is => exact absurd inside (h.ofCircuit_eq_ok hlower).1
    | error fault =>
      obtain ⟨_, rfl⟩ | ⟨t, ht, _⟩ := h.ofCircuit_eq_error hlower
      · rfl
      · exact absurd (bound ▸ ht) List.not_mem_nil
  | reset fits bound quiet inside =>
    rw [statevector, prepare_of_bound fits bound]
    cases hlower : Instruction.ofCircuit c with
    | ok is =>
      obtain ⟨w, hw⟩ := (h.ofCircuit_eq_ok hlower).2.2 ⟨_, inside, rfl⟩
      exact Instruction.foldlM_exactStep_of_reset hw s
    | error fault =>
      obtain ⟨noisy, _⟩ | ⟨t, ht, _⟩ := h.ofCircuit_eq_error hlower
      · exact absurd noisy quiet
      · exact absurd (bound ▸ ht) List.not_mem_nil

/-- A circuit evolves the states of its size if no token and no reset is left in it and no noise marker
is controlled, and no others. A state of another size is refused for its size, then a token that remains
for its name, the least one first, then what is not unitary. The lowering fails at controlled noise or at
a token, never for the want of an adjoint. -/
theorem statevector_accepts (h : c.Built) (s : State R) :
    ((c.statevector s).isOk = true ↔ c.Evolves s) ∧
    (∀ fault, c.statevector s = .error fault ↔ c.Refuses s fault) ∧
    ∀ fault, Instruction.ofCircuit c = .error fault →
      (.noise, true) ∈ (Operation.composite c).gates false ∧ fault = .notUnitary "noise" ∨
        ∃ t ∈ c.tokens, fault = .unbound t := by
  have hwell := h.wellFormed
  have hok : (c.statevector s).isOk = true ↔ c.Evolves s := by
    rw [isOk_eq_true_iff]
    refine ⟨fun ⟨t, ht⟩ => ?_, hwell.exists_statevector⟩
    obtain hs | ⟨fault, hs⟩ := c.evolves_or_refuses s
    · exact hs
    · cases ht.symm.trans (hwell.statevector_of_refuses hs)
  refine ⟨hok, fun fault => ⟨fun hfault => ?_, hwell.statevector_of_refuses⟩, fun _ => hwell.ofCircuit_eq_error⟩
  obtain hs | ⟨fault', hs⟩ := c.evolves_or_refuses s
  · obtain ⟨t, ht⟩ := hwell.exists_statevector hs
    cases ht.symm.trans hfault
  · obtain rfl : fault' = fault := Except.error.inj ((hwell.statevector_of_refuses hs).symm.trans hfault)
    exact hs

end Exact

attribute [local instance] EigenSolver.spectral in
theorem statevector_accepts_nested :
    (nested : Circuit ℝ).Built ∧
    (((nested : Circuit ℝ).statevector (.zero 2)).isOk = true ↔ (nested : Circuit ℝ).Evolves (.zero 2)) ∧
    (∀ fault, (nested : Circuit ℝ).statevector (.zero 2) = .error fault ↔
      (nested : Circuit ℝ).Refuses (.zero 2) fault) ∧
    ∀ fault, Instruction.ofCircuit (nested : Circuit ℝ) = .error fault →
      (.noise, true) ∈ (Operation.composite (nested : Circuit ℝ)).gates false ∧ fault = .notUnitary "noise" ∨
        ∃ t ∈ (nested : Circuit ℝ).tokens, fault = .unbound t :=
  ⟨nested_built, statevector_accepts nested_built (.zero 2)⟩

end Circuit
end QuantumCircuits
