import Mathlib
import QuantumCircuits.Proofs.Circuit.Gates
import QuantumCircuits.Proofs.Matrix.Spectral
import QuantumCircuits.Proofs.Operator.Placed

/-! The linear map that an operation stands for, read off its structure. -/

noncomputable section
namespace QuantumCircuits
open Matrix Operator

variable [EigenSolver ℝ]

def Gate.action (g : Gate ℝ) : Operator (g.arity - g.controls) :=
  match g.targetMatrix with
  | .ok m => m.toMatrix _ _
  | .error _ => 1

/-- The matrix of a gate on its last wires, applied where the controls in front read one. -/
def Gate.meaning (g : Gate ℝ) : Operator g.arity :=
  placed ((List.range g.controls).map fun w => (w, true))
    (List.range' g.controls (g.arity - g.controls)) g.action

namespace Operation

mutual

/-- A composite means its steps one after the other, each on its wires. A controlled operation means
the inner one where the first wires read the flags. -/
def meaning : (o : Operation ℝ) → Operator o.arity
  | .primitive g => g.meaning
  | .composite ⟨_, l, steps⟩ => stepsMeaning l.wires steps
  | .controlled o s =>
    placed ((List.range s.length).zip s.flags) (List.range' s.length o.arity) o.meaning
  | .powered o e => meaning o ^ e
  | .inverted o => (meaning o)ᴴ
termination_by structural o => o

def stepsMeaning (n : ℕ) : List (Step (Operation ℝ)) → Operator n
  | [] => 1
  | ⟨o, w⟩ :: rest => stepsMeaning n rest * placed [] w o.meaning
termination_by structural steps => steps

end

theorem stepsMeaning_singleton (n : ℕ) (s : Step (Operation ℝ)) :
    stepsMeaning n [s] = placed [] s.wires s.operation.meaning := by
  obtain ⟨o, w⟩ := s
  rw [stepsMeaning, stepsMeaning, one_mul]

theorem stepsMeaning_append (n : ℕ) (front back : List (Step (Operation ℝ))) :
    stepsMeaning n (front ++ back) = stepsMeaning n back * stepsMeaning n front := by
  induction front with
  | nil => rw [List.nil_append, stepsMeaning, mul_one]
  | cons s rest ih =>
    obtain ⟨o, w⟩ := s
    rw [List.cons_append, stepsMeaning, ih, stepsMeaning, mul_assoc]

theorem stepsMeaning_eq_prod (n : ℕ) (steps : List (Step (Operation ℝ))) :
    stepsMeaning n steps = (steps.map fun s => placed [] s.wires s.operation.meaning).reverse.prod := by
  induction steps with
  | nil => rfl
  | cons s rest ih =>
    obtain ⟨o, w⟩ := s
    rw [stepsMeaning, ih, List.map_cons, List.reverse_cons, List.prod_append, List.prod_singleton]

theorem stepsMeaning_flatMap {α : Type} (n : ℕ) (f : α → List (Step (Operation ℝ)))
    (xs : List α) : stepsMeaning n (xs.flatMap f) = (xs.map fun x => stepsMeaning n (f x)).reverse.prod := by
  induction xs with
  | nil => rfl
  | cons x xs ih =>
    rw [List.flatMap_cons, stepsMeaning_append, ih, List.map_cons, List.reverse_cons, List.prod_append, List.prod_singleton]

theorem adjointIf_stepsMeaning (adjoint : Bool) (n : ℕ) (steps : List (Step (Operation ℝ))) :
    adjointIf adjoint (stepsMeaning n steps) =
      ((if adjoint then steps.reverse else steps).map fun s =>
        adjointIf adjoint (placed [] s.wires s.operation.meaning)).reverse.prod := by
  rw [stepsMeaning_eq_prod]
  cases adjoint with
  | true =>
    change (List.prod _)ᴴ = _
    rw [conjTranspose_list_prod, List.map_reverse, List.map_map, if_pos rfl, List.map_reverse]
    rfl
  | false => rfl

end Operation

def Circuit.meaning (c : Circuit ℝ) : Operator c.wires := Operation.stepsMeaning c.wires c.steps

end QuantumCircuits
end
