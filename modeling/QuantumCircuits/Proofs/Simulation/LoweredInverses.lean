import Mathlib
import QuantumCircuits.Proofs.Circuit.Gates
import QuantumCircuits.Proofs.Circuit.Tokens
import QuantumCircuits.Proofs.Simulation.LoweredGates

/-! The ways to invert an operation agree. Wrapping it, pushing the inversion down to its gates and
lowering it with the opposite flag give the same instructions and the same faults, and they refuse
the same operations for the same reason. -/

namespace QuantumCircuits

/-- Changing the sign twice changes nothing, by negation and by a factor of minus one. -/
class Scalar.LawfulSigns (R : Type) [Scalar R] : Prop where
  neg_neg : ∀ x : R, -(-x) = x
  mul_neg_one : ∀ x : R, x * -1 * -1 = x

instance : Scalar.LawfulSigns ℝ where
  neg_neg x := InvolutiveNeg.neg_neg x
  mul_neg_one x := by rw [mul_assoc, neg_mul_neg, one_mul, mul_one]

section Gates

variable {R : Type} [Scalar R] [Scalar.LawfulSigns R]

theorem Param.neg_neg (θ : Param R) : θ.neg.neg = θ := by
  cases θ with
  | value v => exact congrArg Param.value (Scalar.LawfulSigns.mul_neg_one v)
  | token name c => exact congrArg (Param.token name) (Scalar.LawfulSigns.mul_neg_one c)

theorem DenseMatrix.adjoint_adjoint (m : DenseMatrix (Cx R)) : m.adjoint.adjoint = m := by
  refine ext_get (r := m.rows) (c := m.columns) ⟨rfl, rfl⟩ ⟨rfl, rfl⟩ fun i hi j hj => ?_
  have houter : m.adjoint.adjoint.get i j = (m.adjoint.get j i).conj := get_ofFn _ hi hj
  have hinner : m.adjoint.get j i = (m.get i j).conj := get_ofFn _ hj hi
  rw [houter, hinner]
  exact Cx.ext rfl (Scalar.LawfulSigns.neg_neg _)

theorem Gate.adjoint_adjoint [EigenSolver R] {g a : Gate R} (h : g.adjoint = .ok a) :
    ∃ b, a.adjoint = .ok b ∧ b.controls = g.controls ∧ b.targetMatrix = g.targetMatrix := by
  have hadjoint := adjoint_eq_ok_iff.1 h
  cases g with
  | fixed kind =>
    cases hadjoint
    exact ⟨.fixed kind, by cases kind <;> rfl, rfl, rfl⟩
  | angle kind θ =>
    cases hadjoint
    exact ⟨.angle kind θ.neg.neg, rfl, rfl, by rw [θ.neg_neg]⟩
  | dense label m =>
    cases hadjoint
    exact ⟨_, rfl, rfl, congrArg Except.ok m.adjoint_adjoint⟩
  | evolution m time =>
    cases hadjoint
    exact ⟨.evolution m time.neg.neg, rfl, rfl, by rw [time.neg_neg]⟩
  | noise =>
    cases hadjoint
    exact ⟨.noise, rfl, rfl, rfl⟩
  | reset => cases hadjoint

end Gates

namespace Operation

section Refusals

variable {R : Type} [Scalar R]

theorem checkStepsInvertible_eq_error {steps : List (Step (Operation R))}
    (hsteps : ∀ s ∈ steps, s.operation.isUnitary = false →
      s.operation.checkInvertible = .error (.noAdjoint "reset"))
    (h : ¬ ∀ s ∈ steps, s.operation.isUnitary = true) :
    checkStepsInvertible steps = .error (.noAdjoint "reset") := by
  induction steps with
  | nil => exact absurd (List.forall_mem_nil _) h
  | cons s rest ih =>
    obtain ⟨hhead, htail⟩ := List.forall_mem_cons.1 hsteps
    rw [List.forall_mem_cons] at h
    rw [checkStepsInvertible]
    cases hunitary : s.operation.isUnitary with
    | false => rw [hhead hunitary]; rfl
    | true =>
      rw [checkInvertible_eq_ok_iff.2 hunitary]
      exact ih htail fun hrest => h ⟨hunitary, hrest⟩

theorem checkInvertible_eq_error {o : Operation R} (h : o.isUnitary = false) :
    o.checkInvertible = .error (.noAdjoint "reset") := by
  induction o using Operation.induct with
  | primitive g =>
    cases g with
    | reset => rfl
    | _ => cases h
  | composite c ih =>
    obtain ⟨name, layout, steps⟩ := c
    rw [isUnitary_composite, ← Bool.not_eq_true, List.all_eq_true] at h
    exact checkStepsInvertible_eq_error ih h
  | controlled o s ih => exact ih h
  | powered o e ih => exact ih h
  | inverted o ih => exact ih h

theorem adjointSteps_eq_error {done steps : List (Step (Operation R))}
    (hsteps : ∀ s ∈ steps, s.operation.isUnitary = false →
      s.operation.adjoint = .error (.noAdjoint "reset"))
    (h : ¬ ∀ s ∈ steps, s.operation.isUnitary = true) :
    adjointSteps done steps = .error (.noAdjoint "reset") := by
  induction steps generalizing done with
  | nil => exact absurd (List.forall_mem_nil _) h
  | cons s rest ih =>
    obtain ⟨hhead, htail⟩ := List.forall_mem_cons.1 hsteps
    rw [List.forall_mem_cons] at h
    rw [adjointSteps]
    cases hunitary : s.operation.isUnitary with
    | false => rw [hhead hunitary]; rfl
    | true =>
      obtain ⟨a, ha⟩ := exists_adjoint hunitary
      rw [ha]
      exact ih htail fun hrest => h ⟨hunitary, hrest⟩

theorem WellFormed.adjoint_eq_error {o : Operation R} (hwell : o.WellFormed) (h : o.isUnitary = false) :
    o.adjoint = .error (.noAdjoint "reset") := by
  induction hwell with
  | @primitive g _ =>
    cases g with
    | reset => rfl
    | _ => cases h
  | @composite c _ _ _ ih =>
    obtain ⟨name, layout, steps⟩ := c
    rw [isUnitary_composite, ← Bool.not_eq_true, List.all_eq_true] at h
    rw [Operation.adjoint, adjointSteps_eq_error ih h]
    rfl
  | controlled _ _ _ ih =>
    rw [Operation.adjoint, ih h]
    rfl
  | powered _ _ ih =>
    rw [Operation.adjoint, ih h]
    rfl
  | inverted _ unitary _ => exact absurd unitary (Bool.eq_false_iff.1 h)

theorem WellFormed.inverse_eq_error {o : Operation R} (hwell : o.WellFormed) (h : o.isUnitary = false) :
    o.inverse = .error (.noAdjoint "reset") := by
  have wrapped : (do o.checkInvertible; return .inverted o) =
      (.error (.noAdjoint "reset") : Except Fault (Operation R)) := by
    rw [checkInvertible_eq_error h]
    rfl
  cases hwell with
  | primitive gate => exact (WellFormed.primitive gate).adjoint_eq_error h
  | inverted _ unitary => exact absurd unitary (Bool.eq_false_iff.1 h)
  | composite => exact wrapped
  | controlled => exact wrapped
  | powered => exact wrapped

theorem mem_tokenNames_adjoint {o a : Operation R} (h : o.adjoint = .ok a) (name : String) :
    name ∈ a.tokenNames ↔ name ∈ o.tokenNames := by
  induction o using Operation.induct generalizing a with
  | primitive g =>
    obtain ⟨b, hb, same⟩ := bind_eq_ok_iff.1 h
    obtain rfl := pure_eq_ok_iff.1 same
    rw [tokenNames, tokenNames, Gate.tokenNames_adjoint hb]
  | composite c ih =>
    obtain ⟨label, layout, steps⟩ := c
    obtain ⟨_, hsteps, same⟩ := bind_eq_ok_iff.1 h
    obtain rfl := pure_eq_ok_iff.1 same
    obtain ⟨images, himages, rfl⟩ := adjointSteps_eq_ok_iff.1 hsteps
    have hnames := map_eq_map_of_forall₂ (f := fun s => name ∈ s.operation.tokenNames)
      (g := fun s => name ∈ s.operation.tokenNames) himages fun s hs t ht => propext (ih s hs ht.1)
    have hmem (list : List (Step (Operation R))) : (∃ s ∈ list, name ∈ s.operation.tokenNames) ↔
        True ∈ list.map fun s => name ∈ s.operation.tokenNames := by simp
    simp only [tokenNames_composite, List.mem_flatMap, List.append_nil, List.mem_reverse]
    rw [hmem, hmem, hnames]
  | controlled o s ih =>
    obtain ⟨inner, hinner, same⟩ := bind_eq_ok_iff.1 h
    obtain rfl := pure_eq_ok_iff.1 same
    change name ∈ inner.tokenNames ↔ name ∈ o.tokenNames
    exact ih hinner
  | powered o e ih =>
    obtain ⟨inner, hinner, same⟩ := bind_eq_ok_iff.1 h
    obtain rfl := pure_eq_ok_iff.1 same
    change name ∈ inner.tokenNames ↔ name ∈ o.tokenNames
    exact ih hinner
  | inverted o ih =>
    cases h
    rfl

theorem tokens_adjoint {o a : Operation R} (h : o.adjoint = .ok a) : a.tokens = o.tokens :=
  sortedNames_congr (mem_tokenNames_adjoint h)

theorem inverse_eq_ok {o i : Operation R} (h : o.inverse = .ok i) :
    i = .inverted o ∨ o.adjoint = .ok i := by
  have wrapped (hwrap : (do o.checkInvertible; return .inverted o) = Except.ok i) : i = .inverted o := by
    obtain ⟨_, _, same⟩ := bind_eq_ok_iff.1 hwrap
    exact (pure_eq_ok_iff.1 same).symm
  cases o with
  | primitive g => exact .inr h
  | inverted o => exact .inr h
  | composite c => exact .inl (wrapped h)
  | controlled o s => exact .inl (wrapped h)
  | powered o e => exact .inl (wrapped h)

end Refusals

end Operation

namespace Instruction

variable {R : Type} [Scalar R] [EigenSolver R]

variable [Scalar.LawfulSigns R]

theorem ofGate_adjoint {g a : Gate R} (h : g.adjoint = .ok a) (wires : List ℕ)
    (controls : List (ℕ × Bool)) (adjoint : Bool) :
    ofGate a wires controls adjoint = ofGate g wires controls (!adjoint) := by
  have hkinds : g = .noise ∧ a = .noise ∨
      (a ≠ .noise ∧ a ≠ .reset) ∧ g ≠ .noise ∧ g ≠ .reset := by
    have hadjoint := Gate.adjoint_eq_ok_iff.1 h
    cases g with
    | noise =>
      cases hadjoint
      exact .inl ⟨rfl, rfl⟩
    | reset => cases hadjoint
    | _ =>
      cases hadjoint
      exact .inr ⟨⟨nofun, nofun⟩, nofun, nofun⟩
  obtain ⟨rfl, rfl⟩ | ⟨⟨ha, ha'⟩, hg, hg'⟩ := hkinds
  · rfl
  · cases adjoint with
    | true =>
      obtain ⟨b, hb, hcontrols, hmatrix⟩ := Gate.adjoint_adjoint h
      rw [Bool.not_true, ofGate_eq_bind ha ha' true hb, ofGate_eq_bind hg hg' false rfl, hcontrols, hmatrix]
    | false => rw [Bool.not_false, ofGate_eq_bind ha ha' false rfl, ofGate_eq_bind hg hg' true h]

theorem ofOperation_adjoint {o a : Operation R} (h : o.adjoint = .ok a) (wires : List ℕ)
    (controls : List (ℕ × Bool)) (adjoint : Bool) :
    ofOperation wires controls adjoint a = ofOperation wires controls (!adjoint) o := by
  -- The flag is general, as an inversion turns it around.
  induction o using Operation.induct generalizing a wires controls adjoint with
  | primitive g =>
    obtain ⟨b, hb, same⟩ := bind_eq_ok_iff.1 h
    obtain rfl := pure_eq_ok_iff.1 same
    exact ofGate_adjoint hb wires controls adjoint
  | composite c ih =>
    obtain ⟨label, layout, steps⟩ := c
    obtain ⟨_, hsteps, same⟩ := bind_eq_ok_iff.1 h
    obtain rfl := pure_eq_ok_iff.1 same
    obtain ⟨images, himages, rfl⟩ := Operation.adjointSteps_eq_ok_iff.1 hsteps
    -- Both lowerings go through the steps in the same order, the one over the reversed images.
    have hparts := map_eq_map_of_forall₂
      (f := fun s => ofOperation (outer wires s.wires) controls (!adjoint) s.operation)
      (g := fun s => ofOperation (outer wires s.wires) controls adjoint s.operation) himages
      fun s hs t ht => by rw [ht.2]; exact ih s hs ht.1 _ _ _
    rw [ofOperation_composite, ofOperation_composite]
    refine congrArg inSequence ?_
    cases adjoint with
    | true => simpa using hparts
    | false => simpa using hparts
  | controlled o s ih =>
    obtain ⟨inner, hinner, same⟩ := bind_eq_ok_iff.1 h
    obtain rfl := pure_eq_ok_iff.1 same
    exact ih hinner _ _ _
  | powered o e ih =>
    obtain ⟨inner, hinner, same⟩ := bind_eq_ok_iff.1 h
    obtain rfl := pure_eq_ok_iff.1 same
    have hbody := ih hinner wires controls adjoint
    change (do let body ← ofOperation wires controls adjoint inner; _) = _
    rw [hbody]
    rfl
  | inverted o ih =>
    cases h
    change _ = ofOperation wires controls (!!adjoint) o
    rw [Bool.not_not]

theorem ofOperation_inverse {o i : Operation R} (h : o.inverse = .ok i) (wires : List ℕ)
    (controls : List (ℕ × Bool)) (adjoint : Bool) :
    ofOperation wires controls adjoint i = ofOperation wires controls (!adjoint) o := by
  rcases Operation.inverse_eq_ok h with rfl | hadjoint
  · rfl
  · exact ofOperation_adjoint hadjoint wires controls adjoint

end Instruction

namespace Operation

variable {R : Type} [Scalar R] [EigenSolver R]

/-- Placed anywhere, under any controls and with either flag, both are lowered to the same
instructions or fail with the same fault. -/
def LowersAlike (x y : Operation R) : Prop :=
  ∀ (wires : List ℕ) (controls : List (ℕ × Bool)) (adjoint : Bool),
    Instruction.ofOperation wires controls adjoint x = Instruction.ofOperation wires controls adjoint y

structure Reverses (x o : Operation R) : Prop where
  arity : x.arity = o.arity
  tokens : x.tokens = o.tokens
  lowered : ∀ (wires : List ℕ) (controls : List (ℕ × Bool)) (adjoint : Bool),
    Instruction.ofOperation wires controls adjoint x = Instruction.ofOperation wires controls (!adjoint) o

variable {o x y : Operation R}

theorem Reverses.lowersAlike (h : y.Reverses x) (h' : x.Reverses o) : y.LowersAlike o := by
  intro wires controls adjoint
  rw [h.lowered, h'.lowered, Bool.not_not]

variable [Scalar.LawfulSigns R]

theorem WellFormed.reverses_adjoint (h : o.WellFormed) (hx : o.adjoint = .ok x) : x.Reverses o :=
  ⟨(h.adjoint hx).2.1, tokens_adjoint hx, Instruction.ofOperation_adjoint hx⟩

theorem WellFormed.reverses_inverse (h : o.WellFormed) (hx : o.inverse = .ok x) : x.Reverses o := by
  refine ⟨(h.inverse hx).2.1, ?_, Instruction.ofOperation_inverse hx⟩
  rcases inverse_eq_ok hx with rfl | hadjoint
  · rfl
  · exact tokens_adjoint hadjoint

/-- Both ways to invert succeed on the operations without a reset and refuse the others with the same
fault. What they return has the wires and the tokens of the operation and is lowered as the operation
is with the opposite flag, and inverted again, in either way, it is lowered as the operation. -/
theorem inversions_agree (h : o.Built) :
    o.inverse.isOk = o.isUnitary ∧ o.adjoint.isOk = o.isUnitary ∧
    (o.isUnitary = false →
      o.inverse = .error (.noAdjoint "reset") ∧ o.adjoint = .error (.noAdjoint "reset")) ∧
    ∀ x, o.inverse = .ok x ∨ o.adjoint = .ok x → x.Reverses o ∧
      ∃ y z, x.inverse = .ok y ∧ x.adjoint = .ok z ∧ y.LowersAlike o ∧ z.LowersAlike o := by
  have hwell := h.wellFormed
  have hsuccess {x : Except Fault (Operation R)} (hfails : o.isUnitary = false → x = .error (.noAdjoint "reset"))
      (hworks : o.isUnitary = true → ∃ y, x = .ok y) : x.isOk = o.isUnitary := by
    cases hunitary : o.isUnitary with
    | false =>
      rw [hfails hunitary]
      rfl
    | true => exact isOk_eq_true_iff.2 (hworks hunitary)
  refine ⟨?_, ?_, fun hreset => ⟨hwell.inverse_eq_error hreset, hwell.adjoint_eq_error hreset⟩, ?_⟩
  · exact hsuccess hwell.inverse_eq_error exists_inverse
  · exact hsuccess hwell.adjoint_eq_error exists_adjoint
  · intro x hx
    obtain ⟨hreverses, hwell', hunitary⟩ : x.Reverses o ∧ x.WellFormed ∧ x.isUnitary = true := by
      rcases hx with hx | hx
      · exact ⟨hwell.reverses_inverse hx, (hwell.inverse hx).1, (hwell.inverse hx).2.2⟩
      · exact ⟨hwell.reverses_adjoint hx, (hwell.adjoint hx).1, (hwell.adjoint hx).2.2⟩
    obtain ⟨y, hy⟩ := exists_inverse hunitary
    obtain ⟨z, hz⟩ := exists_adjoint hunitary
    exact ⟨hreverses, y, z, hy, hz, (hwell'.reverses_inverse hy).lowersAlike hreverses,
      (hwell'.reverses_adjoint hz).lowersAlike hreverses⟩

attribute [local instance] EigenSolver.spectral in
theorem inversions_agree_nested :
    (nested : Operation ℝ).Built ∧
    (nested : Operation ℝ).inverse.isOk = (nested : Operation ℝ).isUnitary ∧
    (nested : Operation ℝ).adjoint.isOk = (nested : Operation ℝ).isUnitary ∧
    ((nested : Operation ℝ).isUnitary = false →
      (nested : Operation ℝ).inverse = .error (.noAdjoint "reset") ∧
        (nested : Operation ℝ).adjoint = .error (.noAdjoint "reset")) ∧
    ∀ x : Operation ℝ, nested.inverse = .ok x ∨ nested.adjoint = .ok x → x.Reverses nested ∧
      ∃ y z, x.inverse = .ok y ∧ x.adjoint = .ok z ∧ y.LowersAlike nested ∧ z.LowersAlike nested :=
  ⟨nested_built, inversions_agree nested_built⟩

end Operation
end QuantumCircuits
