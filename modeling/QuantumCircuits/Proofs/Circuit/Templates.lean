import Mathlib
import QuantumCircuits.Proofs.Circuit.Tokens
import QuantumCircuits.Proofs.Simulation.LoweredInverses

/-! Templates may be bound before they are transformed or after it. Filling in values commutes with every
way to transform an operation or a circuit, and no way adds a token, so binding commutes with all of
them. -/

noncomputable section
namespace QuantumCircuits

section Filling

variable {value : String → ℝ}

theorem Param.fill_neg (θ : Param ℝ) : θ.neg.fill value = (θ.fill value).neg := by
  cases θ with
  | value v => rfl
  | token name coefficient => exact congrArg Param.value (mul_right_comm coefficient (-1) (value name))

theorem Gate.adjoint_fill (g : Gate ℝ) : (g.fill value).adjoint = g.adjoint.map (Gate.fill value) := by
  cases g with
  | angle kind θ => exact congrArg (fun φ => Except.ok (Gate.angle kind φ)) θ.fill_neg.symm
  | evolution m time => exact congrArg (fun t => Except.ok (Gate.evolution m t)) time.fill_neg.symm
  | _ => rfl

namespace Operation

theorem isUnitary_fill (o : Operation ℝ) : (o.fill value).isUnitary = o.isUnitary := by
  induction o using Operation.induct with
  | primitive g => cases g <;> rfl
  | composite c ih =>
    obtain ⟨name, layout, steps⟩ := c
    rw [fill, isUnitary_composite, isUnitary_composite, fillSteps_eq_map, List.all_map, Bool.eq_iff_iff,
      List.all_eq_true, List.all_eq_true]
    exact forall₂_congr fun s hs => Bool.eq_iff_iff.1 (ih s hs)
  | controlled o s ih => exact ih
  | powered o e ih => exact ih
  | inverted o ih => exact ih

theorem name_fill (o : Operation ℝ) : (o.fill value).name = o.name := by
  induction o using Operation.induct with
  | primitive g => cases g <;> rfl
  | composite c ih => rfl
  | controlled o s ih => rw [fill, name, name, ih]
  | powered o e ih => rw [fill, name, name, ih]
  | inverted o ih => rw [fill, name, name, ih]

theorem adjointSteps_fill {steps : List (Step (Operation ℝ))}
    (hsteps : ∀ s ∈ steps, (s.operation.fill value).adjoint = s.operation.adjoint.map (fill value))
    (done : List (Step (Operation ℝ))) :
    adjointSteps (fillSteps value done) (fillSteps value steps) = (adjointSteps done steps).map (fillSteps value) := by
  induction steps generalizing done with
  | nil => rfl
  | cons s rest ih =>
    obtain ⟨o, w⟩ := s
    obtain ⟨hhead, hrest⟩ := List.forall_mem_cons.1 hsteps
    rw [fillSteps, adjointSteps, adjointSteps, hhead]
    cases o.adjoint with
    | error fault => rfl
    | ok a => exact ih hrest (⟨a, w⟩ :: done)

theorem adjoint_fill (o : Operation ℝ) : (o.fill value).adjoint = o.adjoint.map (fill value) := by
  induction o using Operation.induct with
  | primitive g =>
    rw [fill, adjoint, adjoint, Gate.adjoint_fill]
    cases g.adjoint <;> rfl
  | composite c ih =>
    obtain ⟨name, layout, steps⟩ := c
    have hsteps : adjointSteps [] (fillSteps value steps) = (adjointSteps [] steps).map (fillSteps value) :=
      adjointSteps_fill ih []
    rw [fill, adjoint, adjoint, hsteps]
    cases adjointSteps [] steps <;> rfl
  | controlled o s ih =>
    rw [fill, adjoint, adjoint, ih]
    cases o.adjoint <;> rfl
  | powered o e ih =>
    rw [fill, adjoint, adjoint, ih]
    cases o.adjoint <;> rfl
  | inverted o _ => rfl

theorem checkInvertible_fill (o : Operation ℝ) : (o.fill value).checkInvertible = o.checkInvertible := by
  have hunitary : (o.fill value).isUnitary = o.isUnitary := o.isUnitary_fill
  cases h : o.isUnitary with
  | false => rw [checkInvertible_eq_error h, checkInvertible_eq_error (hunitary.trans h)]
  | true => rw [checkInvertible_eq_ok_iff.2 h, checkInvertible_eq_ok_iff.2 (hunitary.trans h)]

theorem inverse_fill (o : Operation ℝ) : (o.fill value).inverse = o.inverse.map (fill value) := by
  have wrapped : (do (o.fill value).checkInvertible; return .inverted (o.fill value)) =
      (do o.checkInvertible; return .inverted o : Except Fault (Operation ℝ)).map (fill value) := by
    rw [checkInvertible_fill]
    cases o.checkInvertible <;> rfl
  cases o with
  | primitive g => exact adjoint_fill (.primitive g)
  | inverted o => rfl
  | composite c => exact wrapped
  | controlled o s => exact wrapped
  | powered o e => exact wrapped

theorem control_fill (o : Operation ℝ) (n : ℕ) (s : ControlState) :
    (o.fill value).control n s = (o.control n s).map (fill value) := by
  rw [control, control, isUnitary_fill, name_fill]
  split_ifs <;> rfl

theorem power_fill (o : Operation ℝ) (e : ℕ) : (o.fill value).power e = (o.power e).map (fill value) := by
  rw [power, power]
  split_ifs <;> rfl

end Operation

namespace Circuit

theorem inverse_fill (c : Circuit ℝ) : (c.fill value).inverse = c.inverse.map (Circuit.fill value) := by
  have hsteps : Operation.adjointSteps [] (Operation.fillSteps value c.steps) = _ :=
    Operation.adjointSteps_fill (fun s _ => s.operation.adjoint_fill) []
  rw [inverse, inverse, fill, hsteps]
  cases Operation.adjointSteps [] c.steps <;> rfl

theorem compose_fill (c d : Circuit ℝ) : (c.compose d).fill value = (c.fill value).compose (d.fill value) := by
  simp only [fill, compose, Operation.fillSteps_eq_map, List.map_append, List.map_map]
  rfl

theorem extend_fill (c d : Circuit ℝ) :
    (c.fill value).extend (d.fill value) = (c.extend d).map (Circuit.fill value) := by
  rw [extend, extend]
  change (if c.layout.agrees d.layout then _ else _) = _
  split_ifs
  · refine congrArg Except.ok ?_
    simp only [fill, Operation.fillSteps_eq_map, List.map_append]
  · rfl

end Circuit

end Filling

def Bindings.Covers (b : Bindings ℝ) (names : List String) : Prop := ∀ name ∈ names, ∃ v, b.get? name = some v

def Bindings.value (b : Bindings ℝ) (name : String) : ℝ := (b.get? name).getD 0

theorem Bindings.gives_value (b : Bindings ℝ) (names : List String) : b.Gives b.value names := fun name _ v hv => by
  rw [Bindings.value, hv, Option.getD_some]

variable {b : Bindings ℝ}

theorem Bindings.Covers.resolved {names : List String} (h : b.Covers names) {α : Type} (x : α) :
    b.resolved names x = .ok x :=
  Bindings.resolved_eq_ok_iff.2 ⟨fun name hname => Option.isSome_iff_exists.2 (h name hname), rfl⟩

theorem Bindings.Covers.append {names more : List String} (h : b.Covers names) (h' : b.Covers more) :
    b.Covers (names ++ more) := fun name hname => (List.mem_append.1 hname).elim (h name) (h' name)

theorem Operation.bind_of_covers {o : Operation ℝ} (h : b.Covers o.tokenNames) : o.bind b = .ok (o.fill b.value) :=
  (Operation.bind_eq (b.gives_value _)).trans (h.resolved _)

theorem Circuit.bind_of_covers {c : Circuit ℝ} (h : b.Covers (Operation.stepTokenNames c.steps)) :
    c.bind b = .ok (c.fill b.value) :=
  (Circuit.bind_eq (b.gives_value _)).trans (h.resolved _)

theorem Circuit.bind_eq_ok_iff_covers {c d : Circuit ℝ} :
    c.bind b = .ok d ↔ b.Covers (Operation.stepTokenNames c.steps) ∧ c.fill b.value = d := by
  rw [Circuit.bind_eq (b.gives_value _), Bindings.resolved_eq_ok_iff]
  simp only [Option.isSome_iff_exists, Bindings.Covers]

/-- The two calls succeed alike, and what the second one gives is the first result bound; if they fail
it is with the same fault. -/
structure BoundAlike {α : Type} (bind : α → Except Fault α) (template bound : Except Fault α) : Prop where
  isOk_eq : template.isOk = bound.isOk
  bind_eq : (template >>= bind) = bound

theorem BoundAlike.of_fill {α : Type} {fill : α → α} {bind : α → Except Fault α} {template bound : Except Fault α}
    (hfill : bound = template.map fill) (hbind : ∀ x, template = .ok x → bind x = .ok (fill x)) :
    BoundAlike bind template bound := by
  subst hfill
  cases template with
  | error fault => exact ⟨rfl, rfl⟩
  | ok x => exact ⟨rfl, hbind x rfl⟩

namespace Operation

theorem mem_tokenNames_inverse {o x : Operation ℝ} (h : o.inverse = .ok x) (name : String) :
    name ∈ x.tokenNames ↔ name ∈ o.tokenNames := by
  rcases inverse_eq_ok h with rfl | hadjoint
  · rfl
  · exact mem_tokenNames_adjoint hadjoint name

theorem tokenNames_control {o x : Operation ℝ} {n : ℕ} {s : ControlState} (h : o.control n s = .ok x) :
    x.tokenNames = o.tokenNames := by
  unfold control at h
  split_ifs at h
  cases h
  rfl

theorem tokenNames_power {o x : Operation ℝ} {e : ℕ} (h : o.power e = .ok x) : x.tokenNames = o.tokenNames := by
  unfold power at h
  split_ifs at h
  cases h
  rfl

/-- Every call that transforms one operation, without new tokens, in a way that commutes with filling
in values. -/
theorem boundAlike_of_fill {o : Operation ℝ} (h : b.Covers o.tokenNames) {t : Operation ℝ → Except Fault (Operation ℝ)}
    (hfill : t (o.fill b.value) = (t o).map (fill b.value))
    (hnames : ∀ x, t o = .ok x → ∀ name ∈ x.tokenNames, name ∈ o.tokenNames) :
    BoundAlike (·.bind b) (t o) (t (o.fill b.value)) :=
  .of_fill hfill fun x hx => bind_of_covers fun name hname => h name (hnames x hx name hname)

end Operation

namespace Circuit

variable {c d x : Circuit ℝ}

theorem mem_stepTokenNames_inverse (h : c.inverse = .ok x) (name : String) :
    name ∈ Operation.stepTokenNames x.steps ↔ name ∈ Operation.stepTokenNames c.steps := by
  have hmem := Operation.mem_tokenNames_adjoint (adjoint_of_inverse h).2 name
  rwa [Operation.tokenNames_composite, Operation.tokenNames_composite, ← Operation.stepTokenNames_eq_flatMap,
    ← Operation.stepTokenNames_eq_flatMap] at hmem

theorem stepTokenNames_compose (c d : Circuit ℝ) : Operation.stepTokenNames (c.compose d).steps =
    Operation.stepTokenNames c.steps ++ Operation.stepTokenNames d.steps := by
  simp only [compose, Operation.stepTokenNames_eq_flatMap, List.flatMap_append, List.flatMap_map]

theorem stepTokenNames_extend (h : c.extend d = .ok x) : Operation.stepTokenNames x.steps =
    Operation.stepTokenNames c.steps ++ Operation.stepTokenNames d.steps := by
  unfold extend at h
  split_ifs at h
  cases h
  simp only [Operation.stepTokenNames_eq_flatMap, List.flatMap_append]

end Circuit

structure Operation.TransformsAlike (b : Bindings ℝ) (o p : Operation ℝ) : Prop where
  inverse : BoundAlike (·.bind b) o.inverse p.inverse
  adjoint : BoundAlike (·.bind b) o.adjoint p.adjoint
  control : ∀ n s, BoundAlike (·.bind b) (o.control n s) (p.control n s)
  power : ∀ e, BoundAlike (·.bind b) (o.power e) (p.power e)

structure Circuit.TransformsAlike (b : Bindings ℝ) (c p : Circuit ℝ) : Prop where
  inverse : BoundAlike (·.bind b) c.inverse p.inverse
  compose : ∀ d q, d.bind b = .ok q → (c.compose d).bind b = .ok (p.compose q)
  extend : ∀ d q, d.bind b = .ok q → BoundAlike (·.bind b) (c.extend d) (p.extend q)

theorem Operation.transformsAlike {o : Operation ℝ} (h : b.Covers o.tokenNames) :
    o.TransformsAlike b (o.fill b.value) where
  inverse := boundAlike_of_fill h o.inverse_fill fun _ hx name => (mem_tokenNames_inverse hx name).1
  adjoint := boundAlike_of_fill h o.adjoint_fill fun _ hx name => (mem_tokenNames_adjoint hx name).1
  control n s := boundAlike_of_fill h (t := (·.control n s)) (o.control_fill n s)
    fun _ hx _ hname => tokenNames_control hx ▸ hname
  power e := boundAlike_of_fill h (t := (·.power e)) (o.power_fill e)
    fun _ hx _ hname => tokenNames_power hx ▸ hname

theorem Circuit.transformsAlike {c : Circuit ℝ} (h : b.Covers (Operation.stepTokenNames c.steps)) :
    c.TransformsAlike b (c.fill b.value) where
  inverse := .of_fill c.inverse_fill fun _ hx =>
    bind_of_covers fun name hname => h name ((mem_stepTokenNames_inverse hx name).1 hname)
  compose d q hq := by
    obtain ⟨hd, rfl⟩ := bind_eq_ok_iff_covers.1 hq
    rw [← compose_fill]
    exact bind_of_covers (stepTokenNames_compose c d ▸ h.append hd)
  extend d q hq := by
    obtain ⟨hd, rfl⟩ := bind_eq_ok_iff_covers.1 hq
    exact .of_fill (c.extend_fill d) fun x hx => bind_of_covers (stepTokenNames_extend hx ▸ h.append hd)

/-- With a value for every token, a template can be bound before it is transformed or after it. -/
theorem bind_transformed (b : Bindings ℝ) :
    (∀ o : Operation ℝ, b.Covers o.tokens → ∃ p, o.bind b = .ok p ∧ o.TransformsAlike b p) ∧
    ∀ c : Circuit ℝ, b.Covers c.tokens → ∃ p, c.bind b = .ok p ∧ c.TransformsAlike b p := by
  constructor
  · intro o hcovers
    have ho : b.Covers o.tokenNames := fun name hname => hcovers name (mem_sortedNames.2 hname)
    exact ⟨_, Operation.bind_of_covers ho, Operation.transformsAlike ho⟩
  · intro c hcovers
    have hc : b.Covers (Operation.stepTokenNames c.steps) := fun name hname =>
      hcovers name (mem_sortedNames.2 hname)
    exact ⟨_, Circuit.bind_of_covers hc, Circuit.transformsAlike hc⟩

def Operation.rotationTemplate : Operation ℝ :=
  .inverted (.controlled (.powered (.composite
    ⟨"inner", ⟨[⟨"q", 1, 0⟩], 1⟩, [.gate (.rx (.ofToken "a")) [0]]⟩) 3) ⟨[false]⟩)

def Circuit.rotationTemplate : Circuit ℝ :=
  ⟨"outer", ⟨[⟨"r", 2, 0⟩], 2⟩, [⟨.rotationTemplate, [1, 0]⟩, .gate (.rz (.token "b" Scalar.two)) [0]]⟩

theorem bind_transformed_rotationTemplate :
    ∃ b : Bindings ℝ, b.Covers Operation.rotationTemplate.tokens ∧ b.Covers Circuit.rotationTemplate.tokens ∧
      (∃ p, Operation.rotationTemplate.bind b = .ok p ∧ Operation.rotationTemplate.TransformsAlike b p) ∧
      ∃ p, Circuit.rotationTemplate.bind b = .ok p ∧ Circuit.rotationTemplate.TransformsAlike b p := by
  let b : Bindings ℝ := (Bindings.empty.insert "a" 1).insert "b" 2
  have ha : b.get? "a" = some 1 := rfl
  have hb : b.get? "b" = some 2 := rfl
  have ho : b.Covers Operation.rotationTemplate.tokens := by
    intro name hname
    obtain rfl : name = "a" := List.mem_singleton.1 (mem_sortedNames.1 hname)
    exact ⟨1, ha⟩
  have hc : b.Covers Circuit.rotationTemplate.tokens := by
    intro name hname
    have hmem : name ∈ ["a", "b"] := mem_sortedNames.1 hname
    obtain rfl | rfl : name = "a" ∨ name = "b" := by simpa using hmem
    · exact ⟨1, ha⟩
    · exact ⟨2, hb⟩
  exact ⟨b, ho, hc, (bind_transformed b).1 _ ho, (bind_transformed b).2 _ hc⟩

end QuantumCircuits
end
