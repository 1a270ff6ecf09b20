import Mathlib
import QuantumCircuits.Proofs.Circuit.WellFormed

/-! Every call that builds or transforms a circuit or an operation keeps it well formed. -/

namespace QuantumCircuits
open QuantumCircuits.Basis

variable {R : Type} [Scalar R]

namespace Gate

theorem checkDimension_adjoint {m : DenseMatrix (Cx R)} (h : checkDimension m = .ok ()) :
    checkDimension m.adjoint = .ok () := by
  obtain ⟨hsquare, hle, hpower⟩ := checkDimension_eq_ok_iff.1 h
  have hrows : m.adjoint.rows = m.rows := hsquare.symm
  exact checkDimension_eq_ok_iff.2 ⟨hsquare.symm, hrows ▸ hle, hrows ▸ hpower⟩

theorem ofUnitary_eq_ok_iff {label : String} {m : DenseMatrix (Cx R)} {g : Gate R} :
    ofUnitary label m = .ok g ↔ (checkDimension m = .ok () ∧
      (m.adjoint * m).isNear (DenseMatrix.identity m.rows) = true) ∧ g = .dense label m := by
  constructor
  · intro h
    obtain ⟨_, hcheck, hrest⟩ := bind_eq_ok_iff.1 h
    split at hrest
    · next hnear => exact ⟨⟨hcheck, hnear⟩, (pure_eq_ok_iff.1 hrest).symm⟩
    · cases hrest
  · rintro ⟨⟨hcheck, hnear⟩, rfl⟩
    exact bind_eq_ok_iff.2 ⟨_, hcheck, if_pos hnear⟩

theorem wellFormed_ofUnitary {label : String} {m : DenseMatrix (Cx R)} {g : Gate R}
    (h : ofUnitary label m = .ok g) : g.WellFormed := by
  obtain ⟨⟨hcheck, _⟩, rfl⟩ := ofUnitary_eq_ok_iff.1 h
  exact hcheck

theorem ofHamiltonian_eq_ok_iff {m : DenseMatrix (Cx R)} {time : Param R} {g : Gate R} :
    ofHamiltonian m time = .ok g ↔ m.IsHamiltonian ∧ g = .evolution m time := by
  constructor
  · intro h
    obtain ⟨_, hcheck, hrest⟩ := bind_eq_ok_iff.1 h
    split at hrest
    · next hnear => exact ⟨⟨hcheck, hnear⟩, (pure_eq_ok_iff.1 hrest).symm⟩
    · cases hrest
  · rintro ⟨⟨hcheck, hnear⟩, rfl⟩
    exact bind_eq_ok_iff.2 ⟨_, hcheck, if_pos hnear⟩

theorem wellFormed_ofHamiltonian {m : DenseMatrix (Cx R)} {time : Param R} {g : Gate R}
    (h : ofHamiltonian m time = .ok g) : g.WellFormed := by
  obtain ⟨hm, rfl⟩ := ofHamiltonian_eq_ok_iff.1 h
  exact hm

theorem adjoint_eq_ok_iff {g a : Gate R} : g.adjoint = .ok a ↔ g.adjoint? = some a := by
  rw [adjoint]
  cases g.adjoint? <;> simp

theorem WellFormed.adjoint {g a : Gate R} (h : g.WellFormed) (ha : g.adjoint = .ok a) :
    a.WellFormed ∧ a.arity = g.arity ∧ a.controls = g.controls ∧ a.isUnitary = true := by
  cases g with
  | fixed kind =>
    cases adjoint_eq_ok_iff.1 ha
    cases kind <;> exact ⟨trivial, rfl, rfl, rfl⟩
  | angle kind θ =>
    cases adjoint_eq_ok_iff.1 ha
    exact ⟨trivial, rfl, rfl, rfl⟩
  | dense label m =>
    cases adjoint_eq_ok_iff.1 ha
    have hsquare := (checkDimension_eq_ok_iff.1 h).1
    refine ⟨checkDimension_adjoint h, ?_, rfl, rfl⟩
    change Nat.log2 m.columns = Nat.log2 m.rows
    rw [hsquare]
  | evolution m time =>
    cases adjoint_eq_ok_iff.1 ha
    exact ⟨h, rfl, rfl, rfl⟩
  | noise =>
    cases adjoint_eq_ok_iff.1 ha
    exact ⟨trivial, rfl, rfl, rfl⟩
  | reset => cases adjoint_eq_ok_iff.1 ha

theorem adjoint_of_isUnitary {g : Gate R} (h : g.isUnitary = true) : ∃ a, g.adjoint = .ok a := by
  cases g with
  | reset => cases h
  | _ => exact ⟨_, rfl⟩

theorem WellFormed.bind {g a : Gate R} {b : Bindings R} (h : g.WellFormed) (ha : g.bind b = .ok a) :
    a.WellFormed ∧ a.arity = g.arity ∧ a.isUnitary = g.isUnitary := by
  cases g with
  | angle kind θ =>
    obtain ⟨_, _, rfl⟩ := map_eq_ok_iff.1 ha
    exact ⟨trivial, rfl, rfl⟩
  | evolution m time =>
    obtain ⟨_, _, rfl⟩ := map_eq_ok_iff.1 ha
    exact ⟨h, rfl, rfl⟩
  | _ =>
    cases ha
    exact ⟨h, rfl, rfl⟩

end Gate

def Step.Image (call : Operation R → Except Fault (Operation R)) (s t : Step (Operation R)) :
    Prop := call s.operation = .ok t.operation ∧ t.wires = s.wires

namespace Operation

theorem adjointSteps_eq_ok_iff {done steps images : List (Step (Operation R))} :
    adjointSteps done steps = .ok images ↔
      ∃ later, List.Forall₂ (Step.Image adjoint) steps later ∧ images = later.reverse ++ done := by
  induction steps generalizing done with
  | nil => simp [adjointSteps, eq_comm]
  | cons s rest ih =>
    obtain ⟨o, w⟩ := s
    rw [adjointSteps, bind_eq_ok_iff]
    constructor
    · rintro ⟨a, ha, hrest⟩
      obtain ⟨later, hlater, rfl⟩ := ih.1 hrest
      exact ⟨⟨a, w⟩ :: later, .cons ⟨ha, rfl⟩ hlater, by simp⟩
    · rintro ⟨_, hlater, rfl⟩
      cases hlater with
      | @cons _ t _ later ht hlater =>
        obtain ⟨a, v⟩ := t
        obtain ⟨ha, rfl⟩ := ht
        exact ⟨a, ha, ih.2 ⟨later, hlater, by simp⟩⟩

theorem bindSteps_eq_ok_iff {b : Bindings R} {steps images : List (Step (Operation R))} :
    bindSteps b steps = .ok images ↔ List.Forall₂ (Step.Image (Operation.bind b)) steps images := by
  induction steps generalizing images with
  | nil => simp [bindSteps, eq_comm]
  | cons s rest ih =>
    obtain ⟨o, w⟩ := s
    rw [bindSteps, bind_eq_ok_iff]
    constructor
    · rintro ⟨a, ha, h⟩
      obtain ⟨later, hlater, same⟩ := bind_eq_ok_iff.1 h
      obtain rfl := pure_eq_ok_iff.1 same
      exact .cons ⟨ha, rfl⟩ (ih.1 hlater)
    · intro h
      cases h with
      | @cons _ t _ later ht hlater =>
        obtain ⟨a, v⟩ := t
        obtain ⟨ha, rfl⟩ := ht
        exact ⟨a, ha, bind_eq_ok_iff.2 ⟨later, ih.2 hlater, rfl⟩⟩

theorem image_bind_angle {b : Bindings ℝ} {name : String} {v : ℝ} (h : b.get? name = some v) (kind : AngleGate)
    (wires : List ℕ) : Step.Image (Operation.bind b) (.gate (.angle kind (.ofToken name)) wires)
      (.gate (.angle kind (.value v)) wires) := by
  have hparam : (Param.ofToken name).bind b = .ok (.value (1 * v)) := by
    rw [Param.ofToken, Param.bind, h]
  rw [one_mul] at hparam
  refine ⟨?_, rfl⟩
  change Operation.bind b (.primitive (.angle kind (.ofToken name))) = .ok (.primitive (.angle kind (.value v)))
  rw [bind_primitive]
  exact bind_eq_ok_iff.2 ⟨_, map_eq_ok_iff.2 ⟨_, hparam, rfl⟩, rfl⟩

theorem WellFormed.adjoint {o a : Operation R} (h : o.WellFormed) (ha : o.adjoint = .ok a) :
    a.WellFormed ∧ a.arity = o.arity ∧ a.isUnitary = true := by
  induction h generalizing a with
  | primitive gate =>
    obtain ⟨g, hg, same⟩ := bind_eq_ok_iff.1 ha
    obtain rfl := pure_eq_ok_iff.1 same
    obtain ⟨hwell, harity, _, hunitary⟩ := gate.adjoint hg
    exact ⟨.primitive hwell, harity, hunitary⟩
  | @composite c layout fits _ ih =>
    obtain ⟨name, l, steps⟩ := c
    obtain ⟨_, hsteps, same⟩ := bind_eq_ok_iff.1 ha
    obtain rfl := pure_eq_ok_iff.1 same
    obtain ⟨images, himages, rfl⟩ := adjointSteps_eq_ok_iff.1 hsteps
    have himage : ∀ t ∈ images.reverse ++ [], t.Fits l.wires ∧ t.operation.WellFormed ∧
        t.operation.isUnitary = true := by
      intro t ht
      obtain ⟨s, hs, himage, hwires⟩ :=
        exists_of_forall₂_right himages t (List.mem_reverse.1 (by simpa using ht))
      obtain ⟨hwell, harity, hunitary⟩ := ih s hs himage
      refine ⟨?_, hwell, hunitary⟩
      rw [Step.Fits, harity, hwires]
      exact fits s hs
    refine ⟨.composite layout (fun t ht => (himage t ht).1) fun t ht => (himage t ht).2.1, rfl, ?_⟩
    rw [isUnitary_composite, List.all_eq_true]
    exact fun t ht => (himage t ht).2.2
  | controlled _ _ controls ih =>
    obtain ⟨inner, hinner, same⟩ := bind_eq_ok_iff.1 ha
    obtain rfl := pure_eq_ok_iff.1 same
    obtain ⟨hwell, harity, hunitary⟩ := ih hinner
    exact ⟨.controlled hwell hunitary controls, by rw [arity, harity, arity], hunitary⟩
  | powered _ exponent ih =>
    obtain ⟨inner, hinner, same⟩ := bind_eq_ok_iff.1 ha
    obtain rfl := pure_eq_ok_iff.1 same
    obtain ⟨hwell, harity, hunitary⟩ := ih hinner
    exact ⟨.powered hwell exponent, harity, hunitary⟩
  | inverted inner unitary _ =>
    cases ha
    exact ⟨inner, rfl, unitary⟩

theorem WellFormed.bind {o a : Operation R} {b : Bindings R} (h : o.WellFormed)
    (ha : o.bind b = .ok a) :
    a.WellFormed ∧ a.arity = o.arity ∧ (o.isUnitary = true → a.isUnitary = true) := by
  induction h generalizing a with
  | primitive gate =>
    rw [bind_primitive] at ha
    obtain ⟨g, hg, same⟩ := bind_eq_ok_iff.1 ha
    obtain rfl := pure_eq_ok_iff.1 same
    obtain ⟨hwell, harity, hunitary⟩ := gate.bind hg
    exact ⟨.primitive hwell, harity, hunitary.trans⟩
  | @composite c layout fits _ ih =>
    obtain ⟨name, l, steps⟩ := c
    rw [bind_composite] at ha
    obtain ⟨images, hsteps, same⟩ := bind_eq_ok_iff.1 ha
    obtain rfl := pure_eq_ok_iff.1 same
    have himage : ∀ t ∈ images, t.Fits l.wires ∧ t.operation.WellFormed ∧
        ∃ s ∈ steps, s.operation.isUnitary = true → t.operation.isUnitary = true := by
      intro t ht
      obtain ⟨s, hs, himage, hwires⟩ := exists_of_forall₂_right (bindSteps_eq_ok_iff.1 hsteps) t ht
      obtain ⟨hwell, harity, hunitary⟩ := ih s hs himage
      refine ⟨?_, hwell, s, hs, hunitary⟩
      rw [Step.Fits, harity, hwires]
      exact fits s hs
    refine ⟨.composite layout (fun t ht => (himage t ht).1) fun t ht => (himage t ht).2.1, rfl, ?_⟩
    rw [isUnitary_composite, isUnitary_composite, List.all_eq_true, List.all_eq_true]
    intro hall t ht
    obtain ⟨_, _, s, hs, hunitary⟩ := himage t ht
    exact hunitary (hall s hs)
  | controlled _ unitary controls ih =>
    rw [bind_controlled] at ha
    obtain ⟨inner, hinner, same⟩ := bind_eq_ok_iff.1 ha
    obtain rfl := pure_eq_ok_iff.1 same
    obtain ⟨hwell, harity, hunitary⟩ := ih hinner
    exact ⟨.controlled hwell (hunitary unitary) controls, by rw [arity, harity, arity], hunitary⟩
  | powered _ exponent ih =>
    rw [bind_powered] at ha
    obtain ⟨inner, hinner, same⟩ := bind_eq_ok_iff.1 ha
    obtain rfl := pure_eq_ok_iff.1 same
    obtain ⟨hwell, harity, hunitary⟩ := ih hinner
    exact ⟨.powered hwell exponent, harity, hunitary⟩
  | inverted _ unitary ih =>
    rw [bind_inverted] at ha
    obtain ⟨inner, hinner, same⟩ := bind_eq_ok_iff.1 ha
    obtain rfl := pure_eq_ok_iff.1 same
    obtain ⟨hwell, harity, hunitary⟩ := ih hinner
    exact ⟨.inverted hwell (hunitary unitary), harity, hunitary⟩

theorem checkStepsInvertible_eq_ok_iff {steps : List (Step (Operation R))} :
    checkStepsInvertible steps = .ok () ↔ ∀ s ∈ steps, s.operation.checkInvertible = .ok () := by
  induction steps with
  | nil => simp [checkStepsInvertible]
  | cons s rest ih =>
    obtain ⟨o, w⟩ := s
    rw [checkStepsInvertible, bind_eq_ok_iff, List.forall_mem_cons, ih]
    exact ⟨fun ⟨_, h, hrest⟩ => ⟨h, hrest⟩, fun ⟨h, hrest⟩ => ⟨_, h, hrest⟩⟩

theorem checkInvertible_eq_ok_iff {o : Operation R} :
    o.checkInvertible = .ok () ↔ o.isUnitary = true := by
  induction o using Operation.induct with
  | primitive g =>
    cases g <;> simp [checkInvertible, isUnitary, Gate.isUnitary, Gate.adjoint, Gate.adjoint?,
      discard, Functor.discard, Functor.mapConst, Except.map]
  | composite c ih =>
    obtain ⟨name, layout, steps⟩ := c
    rw [isUnitary_composite, List.all_eq_true]
    exact checkStepsInvertible_eq_ok_iff.trans (forall₂_congr ih)
  | controlled o s ih => exact ih
  | powered o e ih => exact ih
  | inverted o ih => exact ih

theorem WellFormed.inverse {o a : Operation R} (h : o.WellFormed) (ha : o.inverse = .ok a) :
    a.WellFormed ∧ a.arity = o.arity ∧ a.isUnitary = true := by
  have wrapped (hwrap : (do o.checkInvertible; return .inverted o) = Except.ok a) :
      a.WellFormed ∧ a.arity = o.arity ∧ a.isUnitary = true := by
    obtain ⟨_, hcheck, same⟩ := bind_eq_ok_iff.1 hwrap
    obtain rfl := pure_eq_ok_iff.1 same
    have hunitary := checkInvertible_eq_ok_iff.1 hcheck
    exact ⟨.inverted h hunitary, rfl, hunitary⟩
  cases h with
  | primitive gate => exact (WellFormed.primitive gate).adjoint ha
  | inverted inner unitary =>
    cases ha
    exact ⟨inner, rfl, unitary⟩
  | composite => exact wrapped ha
  | controlled => exact wrapped ha
  | powered => exact wrapped ha

theorem WellFormed.control {o a : Operation R} {n : ℕ} {s : ControlState} (h : o.WellFormed)
    (ha : o.control n s = .ok a) : a.WellFormed := by
  unfold Operation.control at ha
  split at ha
  · cases ha
  · next hcount =>
    split at ha
    · next hunitary =>
      cases ha
      rw [Bool.or_eq_true, decide_eq_true_eq, bne_iff_ne, not_or, not_not] at hcount
      exact .controlled h hunitary (hcount.2 ▸ Nat.pos_of_ne_zero hcount.1)
    · cases ha

theorem WellFormed.power {o a : Operation R} {e : ℕ} (h : o.WellFormed) (ha : o.power e = .ok a) :
    a.WellFormed := by
  unfold Operation.power at ha
  split at ha
  · cases ha
  · next he =>
    cases ha
    exact .powered h (Nat.pos_of_ne_zero he)

theorem WellFormed.powerOfTwo {o a : Operation R} {k : ℕ} (h : o.WellFormed)
    (ha : o.powerOfTwo k = .ok a) : a.WellFormed := by
  unfold Operation.powerOfTwo at ha
  split at ha
  · exact h.power ha
  · cases ha

end Operation

namespace Circuit

variable {c d : Circuit R}

theorem WellFormed.empty (name : String) : (Circuit.empty name : Circuit R).WellFormed :=
  wellFormed_iff.2 ⟨Layout.WellFormed.empty, by simp [Circuit.empty]⟩

theorem WellFormed.steps (h : c.WellFormed) :
    ∀ s ∈ c.steps, s.Fits c.wires ∧ s.operation.WellFormed := (wellFormed_iff.1 h).2

theorem WellFormed.layout (h : c.WellFormed) : c.layout.WellFormed := (wellFormed_iff.1 h).1

theorem WellFormed.addRegister {name : String} {size : ℕ} {r : Register} (h : c.WellFormed)
    (hadd : c.addRegister name size = .ok (r, d)) : d.WellFormed := by
  obtain ⟨⟨s, layout⟩, hlayout, same⟩ := bind_eq_ok_iff.1 hadd
  have hlayout' := h.layout.add hlayout
  cases pure_eq_ok_iff.1 same
  obtain ⟨_, _, hd⟩ := addRegister_eq_ok_iff.1 hadd
  have hwires : c.wires ≤ layout.wires := by
    have hsum := congrArg CircuitOf.wires hd
    exact (show layout.wires = c.wires + size from hsum) ▸ Nat.le_add_right _ _
  refine wellFormed_iff.2 ⟨hlayout', fun s hs => ⟨?_, (h.steps s hs).2⟩⟩
  have hfits := (h.steps s hs).1
  exact ⟨hfits.length, hfits.nodup, fun w hw => (hfits.below w hw).trans_le hwires⟩

theorem WellFormed.appendAll {steps : List (Step (Operation R))} (h : c.WellFormed)
    (hsteps : ∀ s ∈ steps, s.operation.WellFormed) (happend : c.appendAll steps = .ok d) :
    d.WellFormed := by
  obtain ⟨hfits, rfl⟩ := appendAll_eq_ok_iff.1 happend
  refine wellFormed_iff.2 ⟨h.layout, fun s hs => ?_⟩
  rcases List.mem_append.1 hs with hs | hs
  · exact h.steps s hs
  · exact ⟨hfits s hs, hsteps s hs⟩

theorem WellFormed.append {o : Operation R} {wires : List ℕ} (h : c.WellFormed) (ho : o.WellFormed)
    (happend : c.append o wires = .ok d) : d.WellFormed :=
  h.appendAll (List.forall_mem_singleton.2 ho) happend

theorem WellFormed.compose (h : c.WellFormed) (h' : d.WellFormed) : (c.compose d).WellFormed := by
  refine wellFormed_iff.2 ⟨h.layout.append h'.layout, fun s hs => ?_⟩
  rcases List.mem_append.1 hs with hs | hs
  · have hfits := (h.steps s hs).1
    exact ⟨⟨hfits.length, hfits.nodup,
      fun w hw => (hfits.below w hw).trans_le (Nat.le_add_right _ _)⟩, (h.steps s hs).2⟩
  · obtain ⟨t, ht, rfl⟩ := List.mem_map.1 hs
    obtain ⟨hfits, hwell⟩ := h'.steps t ht
    refine ⟨⟨by rw [List.length_map, hfits.length], ?_, ?_⟩, hwell⟩
    · exact hfits.nodup.map (add_left_injective c.wires)
    · intro w hw
      obtain ⟨v, hv, rfl⟩ := List.mem_map.1 hw
      have hbelow := hfits.below v hv
      change v + c.wires < c.wires + d.wires
      omega

theorem WellFormed.extend {e : Circuit R} (h : c.WellFormed) (h' : d.WellFormed)
    (hextend : c.extend d = .ok e) : e.WellFormed := by
  unfold Circuit.extend at hextend
  split at hextend
  · next hagrees =>
    cases hextend
    have hwires : c.layout.wires = d.layout.wires := by
      rw [Layout.agrees, Bool.and_eq_true, beq_iff_eq, beq_iff_eq] at hagrees
      exact hagrees.2
    refine wellFormed_iff.2 ⟨h.layout, fun s hs => ?_⟩
    rcases List.mem_append.1 hs with hs | hs
    · exact h.steps s hs
    · obtain ⟨hfits, hwell⟩ := h'.steps s hs
      refine ⟨?_, hwell⟩
      change Selects c.layout.wires _ _
      rw [hwires]
      exact hfits
  · cases hextend

theorem adjoint_of_inverse (h : c.inverse = .ok d) :
    d.layout = c.layout ∧ (Operation.composite c).adjoint = .ok (.composite d) := by
  obtain ⟨steps, hsteps, same⟩ := bind_eq_ok_iff.1 h
  cases pure_eq_ok_iff.1 same
  obtain ⟨name, layout, inner⟩ := c
  exact ⟨rfl, bind_eq_ok_iff.2 ⟨steps, hsteps, rfl⟩⟩

theorem WellFormed.inverse (h : c.WellFormed) (hinverse : c.inverse = .ok d) : d.WellFormed :=
  (Operation.WellFormed.adjoint h (adjoint_of_inverse hinverse).2).1

theorem bind_of_images {b : Bindings R} {images : List (Step (Operation R))}
    (h : List.Forall₂ (Step.Image (Operation.bind b)) c.steps images) : c.bind b = .ok { c with steps := images } :=
  bind_eq_ok_iff.2 ⟨images, Operation.bindSteps_eq_ok_iff.2 h, rfl⟩

theorem WellFormed.bind {b : Bindings R} (h : c.WellFormed) (hbind : c.bind b = .ok d) :
    d.WellFormed := by
  obtain ⟨steps, hsteps, same⟩ := bind_eq_ok_iff.1 hbind
  cases pure_eq_ok_iff.1 same
  have hcomposite : (Operation.composite c).bind b = .ok (.composite { c with steps }) := by
    obtain ⟨name, layout, inner⟩ := c
    rw [Operation.bind_composite]
    exact bind_eq_ok_iff.2 ⟨steps, hsteps, rfl⟩
  exact (Operation.WellFormed.bind h hcomposite).1

end Circuit
end QuantumCircuits
