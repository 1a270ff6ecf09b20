import Mathlib
import QuantumCircuits.Proofs.Simulation.Lowering

/-! Lowering on other wires. The wires that a well-formed operation is lowered on are only passed on to its
instructions, so a map on the wires is a map on the instructions. A circuit next to another one is lowered as
it is by itself, on wires that are moved past those of the other one. -/

namespace QuantumCircuits
open QuantumCircuits.Basis

variable {R : Type}

def Placement.relabel (f : ℕ → ℕ) (p : Placement R) : Placement R :=
  ⟨p.controls.map fun c => (f c.1, c.2), p.targets.map f, p.matrix⟩

def Instruction.relabel (f : ℕ → ℕ) : Instruction R → Instruction R
  | .gate p => .gate (p.relabel f)
  | .noise w => .noise (f w)
  | .reset w => .reset (f w)

namespace Instruction

theorem inSequence_append (front back : List (Except Fault (List (Instruction R)))) :
    inSequence (front ++ back) = do return (← inSequence front) ++ (← inSequence back) := by
  induction front with
  | nil =>
    rw [List.nil_append]
    change _ = inSequence back >>= fun js => pure ([] ++ js)
    cases inSequence back <;> rfl
  | cons part parts ih =>
    rw [List.cons_append, inSequence_cons, inSequence_cons, ih]
    cases part with
    | error fault => rfl
    | ok is =>
      cases inSequence parts with
      | error fault => rfl
      | ok js =>
        cases inSequence back with
        | error fault => rfl
        | ok ks => exact congrArg Except.ok (List.append_assoc is js ks).symm

theorem inSequence_map (g : Instruction R → Instruction R) (parts : List (Except Fault (List (Instruction R)))) :
    inSequence (parts.map (Except.map (List.map g))) = (inSequence parts).map (List.map g) := by
  induction parts with
  | nil => rfl
  | cons part parts ih =>
    rw [List.map_cons, inSequence_cons, inSequence_cons, ih]
    cases part with
    | error fault => rfl
    | ok is =>
      cases inSequence parts with
      | error fault => rfl
      | ok js => exact congrArg Except.ok List.map_append.symm

variable {f : ℕ → ℕ}

theorem outer_map {wires inside : List ℕ} (h : ∀ w ∈ inside, w < wires.length) :
    outer (wires.map f) inside = (outer wires inside).map f := by
  rw [outer, outer, List.map_map]
  refine List.map_congr_left fun w hw => ?_
  have hlength : w < (wires.map f).length := (List.length_map f).symm ▸ h w hw
  rw [List.getD_eq_getElem _ _ hlength, List.getElem_map, Function.comp_apply, List.getD_eq_getElem _ _ (h w hw)]

variable [Scalar R]

theorem repeated_map_relabel (body : List (Instruction R)) (e : ℕ) :
    repeated (body.map (relabel f)) e = (repeated body e).map (relabel f) := by
  by_cases hsingle : ∃ p, body = [.gate p]
  · obtain ⟨p, rfl⟩ := hsingle
    rfl
  · have hbody : ∀ p, body ≠ [.gate p] := fun p same => hsingle ⟨p, same⟩
    have himage : ∀ p, body.map (relabel f) ≠ [.gate p] := by
      intro p same
      obtain ⟨i, rfl, hi⟩ := List.map_eq_singleton_iff.1 same
      cases i with
      | gate q => exact hbody q rfl
      | noise w => cases hi
      | reset w => cases hi
    rw [repeated_eq_flatten hbody, repeated_eq_flatten himage, List.map_flatten, List.map_replicate]

variable [EigenSolver R]

theorem ofGate_map {g : Gate R} {wires : List ℕ} (hlength : wires.length = g.arity) (controls : List (ℕ × Bool))
    (adjoint : Bool) : ofGate g (wires.map f) (controls.map fun c => (f c.1, c.2)) adjoint =
      (ofGate g wires controls adjoint).map (List.map (relabel f)) := by
  have hfirst (hone : g.arity = 1) : (wires.map f).headD 0 = f (wires.headD 0) := by
    obtain ⟨w, rfl⟩ := List.length_eq_one_iff.1 (hlength.trans hone)
    rfl
  have hempty : (controls.map fun c => (f c.1, c.2)).isEmpty = controls.isEmpty := List.isEmpty_map
  have hplaced (x : Except Fault (Gate R)) :
      (do
        let a ← x
        let m ← a.targetMatrix
        return [Instruction.gate ⟨(controls.map fun c => (f c.1, c.2)) ++ ((wires.map f).take a.controls).map fun w => (w, true),
          (wires.map f).drop a.controls, m⟩]) =
      Except.map (List.map (relabel f)) (do
        let a ← x
        let m ← a.targetMatrix
        return [.gate ⟨controls ++ (wires.take a.controls).map fun w => (w, true), wires.drop a.controls, m⟩]) := by
    cases x with
    | error fault => rfl
    | ok a =>
      change (a.targetMatrix >>= fun m => _) = Except.map _ (a.targetMatrix >>= fun m => _)
      cases a.targetMatrix with
      | error fault => rfl
      | ok m =>
        refine congrArg Except.ok ?_
        simp [relabel, Placement.relabel, List.map_take, List.map_drop, Function.comp_def]
  unfold ofGate
  split
  · rw [hempty, hfirst rfl]
    split <;> rfl
  · rw [hempty, hfirst rfl]
    split
    · rfl
    · split <;> rfl
  · cases adjoint with
    | true => exact hplaced g.adjoint
    | false => exact hplaced (pure g)

/-- An operation on the images of its wires is lowered to the images of its instructions, or to the same fault. -/
theorem ofOperation_map {o : Operation R} (h : o.WellFormed) {wires : List ℕ} (hlength : wires.length = o.arity)
    (controls : List (ℕ × Bool)) (adjoint : Bool) :
    ofOperation (wires.map f) (controls.map fun c => (f c.1, c.2)) adjoint o =
      (ofOperation wires controls adjoint o).map (List.map (relabel f)) := by
  induction h generalizing wires controls adjoint with
  | primitive _ => exact ofGate_map hlength controls adjoint
  | @composite c _ fits _ ih =>
    rw [ofOperation_composite, ofOperation_composite, ← inSequence_map, List.map_map]
    refine congrArg inSequence (List.map_congr_left fun s hs => ?_)
    have hmem := mem_ordered_iff.1 hs
    have hbelow : ∀ w ∈ s.wires, w < wires.length := fun w hw => hlength ▸ (fits s hmem).below w hw
    rw [outer_map hbelow]
    exact ih s hmem ((List.length_map _).trans (fits s hmem).length) controls adjoint
  | @controlled o s _ _ _ ih =>
    rw [Operation.arity] at hlength
    have hinner : (wires.drop s.length).length = o.arity := by
      rw [List.length_drop]
      omega
    have hown : ((wires.map f).take s.length).zip s.flags =
        ((wires.take s.length).zip s.flags).map fun c => (f c.1, c.2) := by
      rw [← List.map_take, List.zip_map_left]
      rfl
    rw [ofOperation, ofOperation, hown, ← List.map_drop, ← List.map_append]
    exact ih hinner _ adjoint
  | @powered o e _ _ ih =>
    rw [ofOperation, ofOperation, ih hlength]
    cases ofOperation wires controls adjoint o with
    | error fault => rfl
    | ok body => exact congrArg Except.ok (repeated_map_relabel body e)
  | inverted _ _ ih => exact ih hlength controls _

end Instruction

theorem Register.shift_shift (r : Register) (k l : ℕ) : (r.shift k).shift l = r.shift (l + k) := by
  rw [shift, shift, shift, Nat.add_comm l, Nat.add_assoc]

theorem Layout.append_assoc (l m n : Layout) : (l.append m).append n = l.append (m.append n) := by
  have hregisters : n.registers.map (·.shift (l.wires + m.wires)) =
      (n.registers.map (·.shift m.wires)).map (·.shift l.wires) := by
    rw [List.map_map]
    exact List.map_congr_left fun r _ => (r.shift_shift _ _).symm
  rw [append, append, append, append, List.map_append, List.append_assoc, Nat.add_assoc, hregisters]

def Step.moved (distance : ℕ) (s : Step (Operation R)) : Step (Operation R) :=
  ⟨s.operation, s.wires.map (· + distance)⟩

theorem Step.moved_moved (s : Step (Operation R)) (k l : ℕ) : (s.moved k).moved l = s.moved (l + k) := by
  rw [moved, moved, moved, List.map_map]
  refine congrArg (Step.mk s.operation) (List.map_congr_left fun w _ => ?_)
  rw [Function.comp_apply, Nat.add_comm l, Nat.add_assoc]

namespace Circuit

theorem steps_compose (a b : Circuit R) : (a.compose b).steps = a.steps ++ b.steps.map (Step.moved a.wires) := rfl

theorem compose_assoc (a b c : Circuit R) : (a.compose b).compose c = a.compose (b.compose c) := by
  have hnames : a.name ++ "+" ++ b.name ++ "+" ++ c.name = a.name ++ "+" ++ (b.name ++ "+" ++ c.name) := by
    simp only [String.append_assoc]
  have hsteps : a.steps ++ b.steps.map (Step.moved a.wires) ++ c.steps.map (Step.moved (a.wires + b.wires)) =
      a.steps ++ (b.steps ++ c.steps.map (Step.moved b.wires)).map (Step.moved a.wires) := by
    rw [List.map_append, List.map_map, List.append_assoc]
    refine congrArg (fun steps => a.steps ++ (b.steps.map (Step.moved a.wires) ++ steps)) ?_
    exact List.map_congr_left fun s _ => (s.moved_moved b.wires a.wires).symm
  change CircuitOf.mk _ _ _ = CircuitOf.mk _ _ _
  exact congr (congrArg₂ CircuitOf.mk hnames (Layout.append_assoc _ _ _)) hsteps

variable [Scalar R] [EigenSolver R]

theorem ofCircuit_compose {a b : Circuit R} (ha : a.WellFormed) (hb : b.WellFormed) :
    Instruction.ofCircuit (a.compose b) = do
      let is ← Instruction.ofCircuit a
      let js ← Instruction.ofCircuit b
      return is ++ js.map (Instruction.relabel (· + a.wires)) := by
  obtain ⟨_, hfront⟩ := wellFormed_iff.1 ha
  obtain ⟨_, hback⟩ := wellFormed_iff.1 hb
  have houter {n : ℕ} {wires : List ℕ} (h : ∀ w ∈ wires, w < n) : Instruction.outer (List.range n) wires = wires :=
    (List.map_congr_left fun w hw => getD_range (h w hw)).trans (List.map_id _)
  have hleft : ∀ s ∈ a.steps, Instruction.ofOperation (Instruction.outer (List.range (a.wires + b.wires)) s.wires) [] false
      s.operation = Instruction.ofOperation (Instruction.outer (List.range a.wires) s.wires) [] false s.operation := by
    intro s hs
    have hbelow := (hfront s hs).1.below
    rw [houter hbelow, houter fun w hw => (hbelow w hw).trans_le (Nat.le_add_right _ _)]
  have hright : ∀ s ∈ b.steps, Instruction.ofOperation
      (Instruction.outer (List.range (a.wires + b.wires)) (s.moved a.wires).wires) [] false s.operation =
        (Instruction.ofOperation (Instruction.outer (List.range b.wires) s.wires) [] false s.operation).map
          (List.map (Instruction.relabel (· + a.wires))) := by
    intro s hs
    obtain ⟨hfits, hwell⟩ := hback s hs
    have hmoved : ∀ w ∈ (s.moved a.wires).wires, w < a.wires + b.wires := by
      intro w hw
      obtain ⟨v, hv, rfl⟩ := List.mem_map.1 hw
      rw [Nat.add_comm]
      exact Nat.add_lt_add_left (hfits.below v hv) a.wires
    rw [houter hfits.below, houter hmoved]
    exact Instruction.ofOperation_map hwell hfits.length [] false
  have hsteps : ((a.compose b).steps.map fun s => Instruction.ofOperation
      (Instruction.outer (List.range (a.wires + b.wires)) s.wires) [] false s.operation) =
        (a.steps.map fun s => Instruction.ofOperation (Instruction.outer (List.range a.wires) s.wires) [] false s.operation) ++
          (b.steps.map fun s => Instruction.ofOperation (Instruction.outer (List.range b.wires) s.wires) [] false
            s.operation).map (Except.map (List.map (Instruction.relabel (· + a.wires)))) := by
    rw [steps_compose, List.map_append, List.map_congr_left hleft, List.map_map, List.map_map]
    exact congrArg _ (List.map_congr_left hright)
  have hlower (c : Circuit R) : Instruction.ofCircuit c = Instruction.inSequence (c.steps.map fun s =>
      Instruction.ofOperation (Instruction.outer (List.range c.wires) s.wires) [] false s.operation) :=
    Instruction.ofOperation_composite c _ [] false
  rw [hlower, hlower, hlower]
  refine (congrArg Instruction.inSequence hsteps).trans ?_
  rw [Instruction.inSequence_append, Instruction.inSequence_map]
  cases Instruction.inSequence (b.steps.map _) <;> rfl

end Circuit
end QuantumCircuits
