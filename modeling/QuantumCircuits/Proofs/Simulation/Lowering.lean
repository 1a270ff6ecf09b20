import Mathlib
import QuantumCircuits.Proofs.Circuit.Session
import QuantumCircuits.Proofs.Matrix.Spectral
import QuantumCircuits.Simulation.Instruction

/-! The flat form of well-formed circuits. Every slice and index that the lowering takes is in range,
and every instruction acts on different wires of the circuit, a gate with a matrix of their size. -/

namespace QuantumCircuits
open QuantumCircuits.Basis

variable {R : Type}

theorem Instruction.inSequence_eq_ok_iff {parts : List (Except Fault (List (Instruction R)))}
    {is : List (Instruction R)} :
    Instruction.inSequence parts = .ok is ↔
      ∃ lists, List.Forall₂ (fun part list => part = .ok list) parts lists ∧ is = lists.flatten := by
  rw [Instruction.inSequence, bind_eq_ok_iff]
  refine exists_congr fun lists => and_congr mapM_eq_ok_iff ?_
  rw [pure_eq_ok_iff, eq_comm]

theorem Instruction.inSequence_cons (part : Except Fault (List (Instruction R)))
    (parts : List (Except Fault (List (Instruction R)))) :
    inSequence (part :: parts) = do return (← part) ++ (← inSequence parts) := by
  cases part with
  | error fault => rfl
  | ok is =>
    unfold inSequence
    rw [List.mapM_cons]
    cases parts.mapM id <;> rfl

theorem Instruction.mem_ordered_iff {steps : List (Step (Operation R))} {s : Step (Operation R)} {adjoint : Bool} :
    s ∈ (if adjoint then steps.reverse else steps) ↔ s ∈ steps := by
  cases adjoint with
  | true => exact List.mem_reverse
  | false => exact Iff.rfl

/-- Controls and targets are different wires of `n`, and the matrix has a row and a column for each
basis state of the targets. -/
structure Placement.Fits (n : ℕ) (p : Placement R) : Prop where
  wires : Selects n (p.controls.length + p.targets.length) (p.controls.map Prod.fst ++ p.targets)
  matrix : p.matrix.Shaped (2 ^ p.targets.length) (2 ^ p.targets.length)

theorem Placement.Fits.selects_targets {n : ℕ} {p : Placement R} (h : p.Fits n) :
    Selects n p.targets.length p.targets := (Selects.controls_iff.1 h.wires).2.1

def Instruction.Fits (n : ℕ) : Instruction R → Prop
  | .gate p => p.Fits n
  | .noise w => w < n
  | .reset w => w < n

def Instruction.Within (n : ℕ) : Instruction R → Prop
  | .gate p => Selects n (p.controls.length + p.targets.length) (p.controls.map Prod.fst ++ p.targets)
  | .noise w => w < n
  | .reset w => w < n

def Instruction.Shaped : Instruction R → Prop
  | .gate p => p.matrix.Shaped (2 ^ p.targets.length) (2 ^ p.targets.length)
  | _ => True

theorem Instruction.Within.fits {n : ℕ} {i : Instruction R} (h : i.Within n) (hshape : i.Shaped) : i.Fits n := by
  cases i with
  | gate p => exact ⟨h, hshape⟩
  | noise w => exact h
  | reset w => exact h

variable [Scalar R]

namespace Instruction

theorem mem_repeated {body : List (Instruction R)} {e : ℕ} {i : Instruction R}
    (h : i ∈ repeated body e) :
    i ∈ body ∨ ∃ p, body = [.gate p] ∧ i = .gate { p with matrix := p.matrix.pow e } := by
  unfold repeated at h
  split at h
  · exact .inl h
  · next p => exact .inr ⟨p, rfl, List.mem_singleton.1 h⟩
  · obtain ⟨copy, hcopy, hi⟩ := List.mem_flatten.1 h
    exact .inl (List.eq_of_mem_replicate hcopy ▸ hi)

theorem repeated_eq_flatten {body : List (Instruction R)} (h : ∀ p, body ≠ [.gate p]) (e : ℕ) :
    repeated body e = (List.replicate e body).flatten := by
  unfold repeated
  split
  · rw [List.flatten_replicate_nil]
  · next p => exact absurd rfl (h p)
  · rfl

section Slices

variable [EigenSolver R]

/-- How many of its wires the lowering of a gate takes, by an index or as a slice in front. -/
def leading : Gate R → ℕ
  | .noise | .reset => 1
  | g => g.controls

mutual

/-- The lowering that stops, without a result, at a slice or an index out of range. -/
def ofOperation? (wires : List ℕ) (controls : List (ℕ × Bool)) (adjoint : Bool) :
    Operation R → Option (Except Fault (List (Instruction R)))
  | .primitive g =>
    if leading g ≤ wires.length then some (ofGate g wires controls adjoint) else none
  | .composite ⟨_, _, steps⟩ => do
    let parts ← ofSteps? wires controls adjoint [] steps
    return inSequence (if adjoint then parts else parts.reverse)
  | .controlled o s =>
    if s.length ≤ wires.length then
      ofOperation? (wires.drop s.length) (controls ++ (wires.take s.length).zip s.flags) adjoint o
    else none
  | .powered o e => do
    let body ← ofOperation? wires controls adjoint o
    return do return repeated (← body) e
  | .inverted o => ofOperation? wires controls (!adjoint) o
termination_by structural o => o

def ofSteps? (wires : List ℕ) (controls : List (ℕ × Bool)) (adjoint : Bool)
    (done : List (Except Fault (List (Instruction R)))) :
    List (Step (Operation R)) → Option (List (Except Fault (List (Instruction R))))
  | [] => some done
  | ⟨o, inside⟩ :: rest => do
    let outside ← inside.mapM fun w => wires[w]?
    let part ← ofOperation? outside controls adjoint o
    ofSteps? wires controls adjoint (part :: done) rest
termination_by structural steps => steps

end

theorem mapM_getElem? {wires inside : List ℕ} (h : ∀ w ∈ inside, w < wires.length) :
    (inside.mapM fun w => wires[w]?) = some (outer wires inside) := by
  induction inside with
  | nil => rfl
  | cons w ws ih =>
    obtain ⟨hw, hws⟩ := List.forall_mem_cons.1 h
    rw [List.mapM_cons, ih hws, List.getElem?_eq_getElem hw]
    simp [outer, hw]

theorem ofSteps?_eq_some {wires : List ℕ} {controls : List (ℕ × Bool)} {adjoint : Bool}
    {done : List (Except Fault (List (Instruction R)))} {steps : List (Step (Operation R))}
    (h : ∀ s ∈ steps, (∀ w ∈ s.wires, w < wires.length) ∧
      ofOperation? (outer wires s.wires) controls adjoint s.operation =
        some (ofOperation (outer wires s.wires) controls adjoint s.operation)) :
    ofSteps? wires controls adjoint done steps = some (ofSteps wires controls adjoint done steps) := by
  induction steps generalizing done with
  | nil => rfl
  | cons s rest ih =>
    obtain ⟨o, inside⟩ := s
    obtain ⟨⟨hbelow, hpart⟩, hrest⟩ := List.forall_mem_cons.1 h
    rw [ofSteps?, mapM_getElem? hbelow]
    change (do let part ← ofOperation? (outer wires inside) controls adjoint o; _) = _
    rw [hpart]
    exact ih hrest

theorem ofOperation?_eq_some {o : Operation R} (h : o.WellFormed) (wires : List ℕ)
    (controls : List (ℕ × Bool)) (adjoint : Bool) (hlength : wires.length = o.arity) :
    ofOperation? wires controls adjoint o = some (ofOperation wires controls adjoint o) := by
  induction h generalizing wires controls adjoint with
  | @primitive g gate =>
    have hle : leading g ≤ wires.length := by
      rw [hlength]
      cases g with
      | noise => exact le_rfl
      | reset => exact le_rfl
      | fixed kind => exact Gate.controls_le_arity (.fixed kind)
      | angle kind θ => exact Gate.controls_le_arity (.angle kind θ)
      | dense label m => exact Nat.zero_le _
      | evolution m time => exact Nat.zero_le _
    rw [ofOperation?, if_pos hle]
    rfl
  | @composite c _ fits _ ih =>
    obtain ⟨name, layout, steps⟩ := c
    have hsteps : ofSteps? wires controls adjoint [] steps =
        some (ofSteps wires controls adjoint [] steps) := by
      refine ofSteps?_eq_some fun s hs => ⟨fun w hw => hlength ▸ (fits s hs).below w hw, ?_⟩
      refine ih s hs _ _ _ ?_
      rw [outer, List.length_map, (fits s hs).length]
    rw [ofOperation?, hsteps]
    rfl
  | @controlled o s _ _ _ ih =>
    rw [Operation.arity] at hlength
    rw [ofOperation?, if_pos (by omega)]
    exact ih _ _ _ (by rw [List.length_drop]; omega)
  | powered _ _ ih =>
    rw [ofOperation?, ih wires controls adjoint hlength]
    rfl
  | inverted _ _ ih => exact ih wires controls (!adjoint) hlength

end Slices

variable [EigenSolver R]

theorem ofSteps_eq (wires : List ℕ) (controls : List (ℕ × Bool)) (adjoint : Bool)
    (done : List (Except Fault (List (Instruction R)))) (steps : List (Step (Operation R))) :
    ofSteps wires controls adjoint done steps =
      (steps.map fun s => ofOperation (outer wires s.wires) controls adjoint s.operation).reverse ++
        done := by
  induction steps generalizing done with
  | nil => rfl
  | cons s rest ih =>
    obtain ⟨o, inside⟩ := s
    rw [ofSteps, ih, List.map_cons, List.reverse_cons, List.append_assoc]
    rfl

theorem ofOperation_composite (c : Circuit R) (wires : List ℕ) (controls : List (ℕ × Bool))
    (adjoint : Bool) :
    ofOperation wires controls adjoint (.composite c) =
      inSequence ((if adjoint then c.steps.reverse else c.steps).map fun s =>
        ofOperation (outer wires s.wires) controls adjoint s.operation) := by
  obtain ⟨name, layout, steps⟩ := c
  rw [ofOperation, ofSteps_eq, List.append_nil]
  cases adjoint <;> simp

theorem ofOperation_composite_eq_ok_iff {c : Circuit R} {wires : List ℕ}
    {controls : List (ℕ × Bool)} {adjoint : Bool} {is : List (Instruction R)} :
    ofOperation wires controls adjoint (.composite c) = .ok is ↔
      ∃ lists, List.Forall₂ (fun s list =>
        ofOperation (outer wires s.wires) controls adjoint s.operation = .ok list)
          (if adjoint then c.steps.reverse else c.steps) lists ∧ is = lists.flatten := by
  rw [ofOperation_composite, inSequence_eq_ok_iff]
  simp only [List.forall₂_map_left_iff]

theorem exists_step_of_mem {c : Circuit R} {wires : List ℕ} {controls : List (ℕ × Bool)} {adjoint : Bool}
    {is : List (Instruction R)} (his : ofOperation wires controls adjoint (.composite c) = .ok is)
    {i : Instruction R} (hi : i ∈ is) : ∃ s ∈ c.steps, ∃ list,
      ofOperation (outer wires s.wires) controls adjoint s.operation = .ok list ∧ i ∈ list := by
  obtain ⟨lists, hlists, rfl⟩ := ofOperation_composite_eq_ok_iff.1 his
  obtain ⟨list, hlist, hi⟩ := List.mem_flatten.1 hi
  obtain ⟨s, hs, hlower⟩ := exists_of_forall₂_right hlists list hlist
  exact ⟨s, mem_ordered_iff.1 hs, list, hlower, hi⟩

theorem ofGate_eq_bind {g a : Gate R} {wires : List ℕ} {controls : List (ℕ × Bool)} (hnoise : g ≠ .noise)
    (hreset : g ≠ .reset) (adjoint : Bool) (ha : if adjoint then g.adjoint = .ok a else a = g) :
    ofGate g wires controls adjoint = (do
      let m ← a.targetMatrix
      return [.gate ⟨controls ++ (wires.take a.controls).map fun w => (w, true),
        wires.drop a.controls, m⟩]) := by
  unfold ofGate
  split
  · exact absurd rfl hnoise
  · exact absurd rfl hreset
  · cases adjoint with
    | true =>
      have hadjoint : g.adjoint = .ok a := ha
      rw [if_pos rfl, hadjoint]
      rfl
    | false =>
      obtain rfl : a = g := ha
      rfl

theorem ofGate_eq_ok {g : Gate R} {wires : List ℕ} {controls : List (ℕ × Bool)} {adjoint : Bool}
    {is : List (Instruction R)} (h : ofGate g wires controls adjoint = .ok is) :
    (g = .noise ∧ controls = [] ∧ is = [.noise (wires.headD 0)]) ∨
    (g = .reset ∧ is = [.reset (wires.headD 0)]) ∨
    ∃ a m, (if adjoint then g.adjoint = .ok a else a = g) ∧ a.targetMatrix = .ok m ∧
      is = [.gate ⟨controls ++ (wires.take a.controls).map fun w => (w, true),
        wires.drop a.controls, m⟩] := by
  unfold ofGate at h
  split at h
  · split at h
    · next hempty =>
      cases h
      exact .inl ⟨rfl, by simpa using hempty, rfl⟩
    · cases h
  · split at h
    · cases h
    · split at h
      · cases h
      · cases h
        exact .inr (.inl ⟨rfl, rfl⟩)
  · have placed {x : Except Fault (Gate R)} (hx : (do
        let a ← x
        let m ← a.targetMatrix
        return [.gate ⟨controls ++ (wires.take a.controls).map fun w => (w, true),
          wires.drop a.controls, m⟩]) = Except.ok is) :
        ∃ a m, x = .ok a ∧ a.targetMatrix = .ok m ∧
          is = [.gate ⟨controls ++ (wires.take a.controls).map fun w => (w, true),
            wires.drop a.controls, m⟩] := by
      obtain ⟨a, ha, hrest⟩ := bind_eq_ok_iff.1 hx
      obtain ⟨m, hm, same⟩ := bind_eq_ok_iff.1 hrest
      exact ⟨a, m, ha, hm, (pure_eq_ok_iff.1 same).symm⟩
    cases adjoint with
    | true => exact .inr (.inr (placed h))
    | false =>
      obtain ⟨a, m, ha, hrest⟩ := placed h
      exact .inr (.inr ⟨a, m, (pure_eq_ok_iff.1 ha).symm, hrest⟩)

end Instruction

theorem FixedGate.shaped_matrix (kind : FixedGate) :
    (kind.matrix : DenseMatrix (Cx R)).Shaped (2 ^ kind.targets) (2 ^ kind.targets) := by
  cases kind <;> exact ⟨rfl, rfl⟩

theorem AngleGate.shaped_matrix (kind : AngleGate) (θ : R) : (kind.matrix θ).Shaped 2 2 := by
  cases kind <;> exact ⟨rfl, rfl⟩

theorem Gate.WellFormed.adjusted {g a : Gate R} {adjoint : Bool} (h : g.WellFormed)
    (ha : if adjoint then g.adjoint = .ok a else a = g) :
    a.WellFormed ∧ a.arity = g.arity ∧ a.controls = g.controls := by
  cases adjoint with
  | true =>
    obtain ⟨hwell, harity, hcontrols, _⟩ := h.adjoint ha
    exact ⟨hwell, harity, hcontrols⟩
  | false => exact ⟨(show a = g from ha) ▸ h, congrArg _ ha, congrArg _ ha⟩

namespace Instruction

variable [EigenSolver R]

theorem within_ofGate {g : Gate R} (h : g.WellFormed) {n : ℕ} {wires : List ℕ}
    {controls : List (ℕ × Bool)} {adjoint : Bool} {is : List (Instruction R)}
    (hwires : Selects n (controls.length + g.arity) (controls.map Prod.fst ++ wires))
    (his : ofGate g wires controls adjoint = .ok is) : ∀ i ∈ is, i.Within n := by
  have hall := hwires
  obtain ⟨_, hwires, _⟩ := Selects.controls_iff.1 hwires
  have hfirst (hone : g.arity = 1) : wires.headD 0 < n := by
    rw [hone] at hwires
    obtain ⟨w, rfl⟩ := List.length_eq_one_iff.1 hwires.length
    exact hwires.below w List.mem_cons_self
  rcases ofGate_eq_ok his with ⟨rfl, _, rfl⟩ | ⟨rfl, rfl⟩ | ⟨a, m, ha, hm, rfl⟩
  · exact List.forall_mem_singleton.2 (hfirst rfl)
  · exact List.forall_mem_singleton.2 (hfirst rfl)
  · obtain ⟨_, harity, _⟩ := h.adjusted ha
    have hown : ((wires.take a.controls).map fun w => (w, true)).map Prod.fst = wires.take a.controls := by
      simp [Function.comp_def]
    rw [← harity, ← Nat.add_sub_of_le a.controls_le_arity] at hall
    have hfits := hall.leading hown
    have htargets : (wires.drop a.controls).length = a.arity - a.controls := by
      rw [List.length_drop, hwires.length, harity]
    refine List.forall_mem_singleton.2 ?_
    rw [Within, htargets]
    exact hfits

theorem within_ofOperation {o : Operation R} (h : o.WellFormed) {n : ℕ} {wires : List ℕ}
    {controls : List (ℕ × Bool)} {adjoint : Bool} {is : List (Instruction R)}
    (hwires : Selects n (controls.length + o.arity) (controls.map Prod.fst ++ wires))
    (his : ofOperation wires controls adjoint o = .ok is) : ∀ i ∈ is, i.Within n := by
  induction h generalizing wires controls adjoint is with
  | primitive gate => exact within_ofGate gate hwires his
  | @composite c _ fits _ ih =>
    obtain ⟨hcontrols, hwires, hdisjoint⟩ := Selects.controls_iff.1 hwires
    intro i hi
    obtain ⟨s, hs, list, hlower, hi⟩ := exists_step_of_mem his hi
    refine ih s hs (Selects.controls_iff.2 ⟨hcontrols, hwires.outer (fits s hs), ?_⟩) hlower i hi
    exact fun c hc hout => hdisjoint c hc (hwires.mem_of_mem_outer (fits s hs).below hout)
  | @controlled o s _ _ _ ih =>
    have hown : ((wires.take s.length).zip s.flags).map Prod.fst = wires.take s.length :=
      List.map_fst_zip (by rw [List.length_take]; exact Nat.min_le_left _ _)
    rw [Operation.arity, Nat.add_comm o.arity] at hwires
    exact ih (hwires.leading hown) his
  | powered _ _ ih =>
    obtain ⟨body, hbody, same⟩ := bind_eq_ok_iff.1 his
    obtain rfl := pure_eq_ok_iff.1 same
    have hwithin := ih hwires hbody
    intro i hi
    rcases mem_repeated hi with hi | ⟨p, rfl, rfl⟩
    · exact hwithin i hi
    · exact hwithin (.gate p) List.mem_cons_self
  | inverted _ _ ih => exact ih hwires his

theorem within_ofCircuit {c : Circuit R} (h : c.WellFormed) {is : List (Instruction R)}
    (his : ofCircuit c = .ok is) : ∀ i ∈ is, i.Within c.wires := by
  refine within_ofOperation h ?_ his
  rw [List.length_nil, Nat.zero_add]
  exact Selects.range c.wires

end Instruction

variable [EigenSolver R] [SquareSpectra R]

theorem Gate.shaped_targetMatrix {g : Gate R} {m : DenseMatrix (Cx R)} (h : g.WellFormed)
    (hm : g.targetMatrix = .ok m) :
    m.Shaped (2 ^ (g.arity - g.controls)) (2 ^ (g.arity - g.controls)) := by
  cases g with
  | fixed kind =>
    cases hm
    rw [Gate.arity, Gate.controls, Nat.add_sub_cancel_left]
    exact kind.shaped_matrix
  | angle kind θ =>
    obtain ⟨x, _, same⟩ := bind_eq_ok_iff.1 hm
    obtain rfl := pure_eq_ok_iff.1 same
    rw [Gate.arity, Gate.controls, Nat.add_sub_cancel_left]
    exact kind.shaped_matrix x
  | dense label matrix =>
    cases hm
    exact Gate.shaped_of_checkDimension h
  | evolution hamiltonian time =>
    obtain ⟨x, _, same⟩ := bind_eq_ok_iff.1 hm
    obtain rfl := pure_eq_ok_iff.1 same
    exact DenseMatrix.shaped_evolution h x
  | noise =>
    cases hm
    exact ⟨rfl, rfl⟩
  | reset => cases hm

namespace Instruction

theorem shaped_ofGate {g : Gate R} (h : g.WellFormed) {wires : List ℕ} {controls : List (ℕ × Bool)} {adjoint : Bool}
    {is : List (Instruction R)} (hlength : wires.length = g.arity) (his : ofGate g wires controls adjoint = .ok is) :
    ∀ i ∈ is, i.Shaped := by
  rcases ofGate_eq_ok his with ⟨rfl, _, rfl⟩ | ⟨rfl, rfl⟩ | ⟨a, m, ha, hm, rfl⟩
  · exact List.forall_mem_singleton.2 trivial
  · exact List.forall_mem_singleton.2 trivial
  · obtain ⟨hwell, harity, _⟩ := h.adjusted ha
    have htargets : (wires.drop a.controls).length = a.arity - a.controls := by
      rw [List.length_drop, hlength, harity]
    refine List.forall_mem_singleton.2 ?_
    rw [Shaped, htargets]
    exact Gate.shaped_targetMatrix hwell hm

theorem shaped_ofOperation {o : Operation R} (h : o.WellFormed) {wires : List ℕ} {controls : List (ℕ × Bool)}
    {adjoint : Bool} {is : List (Instruction R)} (hlength : wires.length = o.arity)
    (his : ofOperation wires controls adjoint o = .ok is) : ∀ i ∈ is, i.Shaped := by
  induction h generalizing wires controls adjoint is with
  | primitive gate => exact shaped_ofGate gate hlength his
  | @composite c _ fits _ ih =>
    intro i hi
    obtain ⟨s, hs, list, hlower, hi⟩ := exists_step_of_mem his hi
    exact ih s hs ((List.length_map _).trans (fits s hs).length) hlower i hi
  | @controlled o s _ _ _ ih =>
    rw [Operation.arity] at hlength
    exact ih (by rw [List.length_drop]; omega) his
  | powered _ _ ih =>
    obtain ⟨body, hbody, same⟩ := bind_eq_ok_iff.1 his
    obtain rfl := pure_eq_ok_iff.1 same
    have hshaped := ih hlength hbody
    intro i hi
    rcases mem_repeated hi with hi | ⟨p, rfl, rfl⟩
    · exact hshaped i hi
    · have hp : p.matrix.Shaped _ _ := hshaped (.gate p) List.mem_cons_self
      exact hp.pow _
  | inverted _ _ ih => exact ih hlength his

theorem fits_ofOperation {o : Operation R} (h : o.WellFormed) {n : ℕ} {wires : List ℕ}
    {controls : List (ℕ × Bool)} {adjoint : Bool} {is : List (Instruction R)}
    (hwires : Selects n (controls.length + o.arity) (controls.map Prod.fst ++ wires))
    (his : ofOperation wires controls adjoint o = .ok is) : ∀ i ∈ is, i.Fits n := fun i hi =>
  (within_ofOperation h hwires his i hi).fits
    (shaped_ofOperation h (Selects.controls_iff.1 hwires).2.1.length his i hi)

theorem fits_ofCircuit {c : Circuit R} (h : c.WellFormed) {is : List (Instruction R)}
    (his : ofCircuit c = .ok is) : ∀ i ∈ is, i.Fits c.wires := by
  refine fits_ofOperation h ?_ his
  rw [List.length_nil, Nat.zero_add]
  exact Selects.range c.wires

end Instruction

/-- Whatever checked calls are made, all circuits and operations are well formed at every depth, a
call that fails leaves them as they were, and the lowering of a circuit stays in range and gives gates on
different wires. -/
theorem Session.invariant_run (calls : List (Call R)) :
    (∀ c ∈ (run calls).circuits, c.WellFormed ∧
      Instruction.ofOperation? (List.range c.wires) [] false (.composite c) =
        some (Instruction.ofCircuit c) ∧
      ∀ is, Instruction.ofCircuit c = .ok is → ∀ i ∈ is, i.Fits c.wires) ∧
    (∀ o ∈ (run calls).operations, o.WellFormed) ∧
    ∀ call fault, ((run calls).perform call).1 = .error fault → (run calls).after call = run calls := by
  have hrun := wellFormed_run calls
  refine ⟨fun c hc => ⟨hrun.circuits c hc, ?_, ?_⟩, hrun.operations, fun call fault => after_of_error⟩
  · exact Instruction.ofOperation?_eq_some (hrun.circuits c hc) _ _ _ List.length_range
  · exact fun is his => Instruction.fits_ofCircuit (hrun.circuits c hc) his

attribute [local instance] EigenSolver.spectral in
theorem Session.invariant_nested :
    (∀ c ∈ (run nested : Session ℝ).circuits, c.WellFormed ∧
      Instruction.ofOperation? (List.range c.wires) [] false (.composite c) =
        some (Instruction.ofCircuit c) ∧
      ∀ is, Instruction.ofCircuit c = .ok is → ∀ i ∈ is, i.Fits c.wires) ∧
    (∀ o ∈ (run nested : Session ℝ).operations, o.WellFormed) ∧
    (∀ call fault, ((run nested : Session ℝ).perform call).1 = .error fault →
      (run nested : Session ℝ).after call = run nested) ∧
    ∃ fault, ((run nested : Session ℝ).perform (.append 1 3 [1, 1])).1 = .error fault ∧
      (run nested : Session ℝ).after (.append 1 3 [1, 1]) = run nested := by
  have := EigenSolver.orthonormalSpectra_spectral
  obtain ⟨hcircuits, hoperations, hfailing⟩ := invariant_run (R := ℝ) nested
  have hrepeated : ((run nested : Session ℝ).perform (.append 1 3 [1, 1])).1 =
      .error (.repeatedWire 1 (Operation.nested : Operation ℝ).name) := by cbv
  exact ⟨hcircuits, hoperations, hfailing, _, hrepeated, hfailing _ _ hrepeated⟩

end QuantumCircuits
