import QuantumCircuits.Circuit.Operation

/-! Replacement of tokens by the values that they are bound to. Operations without tokens are returned
as they are, and `bind_primitive` to `bind_inverted` say that this shortcut changes no result. -/

namespace QuantumCircuits

variable {R : Type}

namespace Operation

theorem shortcut_eq {o : Operation R} {x : Except Fault (Operation R)}
    (h : o.isSymbolic = false → x = .ok o) :
    (if o.isSymbolic then x else .ok o) = x := by
  split
  · rfl
  · next hclosed => rw [h (Bool.eq_false_iff.2 hclosed)]

variable [Scalar R]

mutual

/-- Replaces every token by its bound value. An operation without tokens is returned as it is. -/
def bind (b : Bindings R) (o : Operation R) : Except Fault (Operation R) :=
  if o.isSymbolic then
    match o with
    | .primitive g => do return .primitive (← g.bind b)
    | .composite ⟨name, layout, steps⟩ => do return .composite ⟨name, layout, ← bindSteps b steps⟩
    | .controlled o s => do return .controlled (← o.bind b) s
    | .powered o e => do return .powered (← o.bind b) e
    | .inverted o => do return .inverted (← o.bind b)
  else .ok o
termination_by structural o

def bindSteps (b : Bindings R) : List (Step (Operation R)) →
    Except Fault (List (Step (Operation R)))
  | [] => .ok []
  | ⟨o, w⟩ :: rest => do
    let head ← o.bind b
    let tail ← bindSteps b rest
    return ⟨head, w⟩ :: tail
termination_by structural steps => steps

end

variable {o : Operation R} {b : Bindings R}

theorem bind_of_not_symbolic (h : o.isSymbolic = false) : o.bind b = .ok o := by
  unfold bind
  rw [h, if_neg Bool.false_ne_true]

theorem bindSteps_of_not_symbolic {steps : List (Step (Operation R))}
    (h : stepsSymbolic steps = false) : bindSteps b steps = .ok steps := by
  induction steps with
  | nil => rfl
  | cons s rest ih =>
    obtain ⟨o, w⟩ := s
    rw [stepsSymbolic, Bool.or_eq_false_iff] at h
    rw [bindSteps, bind_of_not_symbolic h.1, ih h.2]
    rfl

theorem bind_primitive (g : Gate R) :
    (primitive g).bind b = (do return .primitive (← g.bind b)) := by
  rw [bind]
  exact shortcut_eq fun h => by rw [Gate.bind_of_not_symbolic h]; rfl

theorem bind_composite (name : String) (layout : Layout) (steps : List (Step (Operation R))) :
    (composite ⟨name, layout, steps⟩).bind b =
      (do return .composite ⟨name, layout, ← bindSteps b steps⟩) := by
  rw [bind]
  exact shortcut_eq fun h => by rw [bindSteps_of_not_symbolic h]; rfl

theorem bind_controlled (s : ControlState) :
    (controlled o s).bind b = (do return .controlled (← o.bind b) s) := by
  rw [bind]
  exact shortcut_eq fun h => by rw [bind_of_not_symbolic (o := o) h]; rfl

theorem bind_powered (e : Nat) :
    (powered o e).bind b = (do return .powered (← o.bind b) e) := by
  rw [bind]
  exact shortcut_eq fun h => by rw [bind_of_not_symbolic (o := o) h]; rfl

theorem bind_inverted : (inverted o).bind b = (do return .inverted (← o.bind b)) := by
  rw [bind]
  exact shortcut_eq fun h => by rw [bind_of_not_symbolic (o := o) h]; rfl

end Operation
end QuantumCircuits
