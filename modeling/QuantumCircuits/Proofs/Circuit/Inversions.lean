import Mathlib
import QuantumCircuits.Proofs.Circuit.Session

/-! How deep inversions are nested, and what an adjoint leaves of them. An adjoint undoes the inversions
that it meets first and keeps what lies inside them as it is, so that it is free of inversions just where
none of them lies inside another one. Controls and exponents stay around the gates they were around. -/

namespace QuantumCircuits

inductive Wrapper where
  | control (state : ControlState)
  | power (exponent : ℕ)

namespace Operation

section Views

variable {R : Type}

inductive InversionFree : Operation R → Prop
  | primitive (g : Gate R) : InversionFree (.primitive g)
  | composite {c : Circuit R} (inner : ∀ s ∈ c.steps, InversionFree s.operation) : InversionFree (.composite c)
  | controlled {o : Operation R} (inner : InversionFree o) (s : ControlState) : InversionFree (.controlled o s)
  | powered {o : Operation R} (inner : InversionFree o) (e : ℕ) : InversionFree (.powered o e)

mutual

def inversionDepth : Operation R → ℕ
  | .primitive _ => 0
  | .composite ⟨_, _, steps⟩ => stepsInversionDepth steps
  | .controlled o _ => o.inversionDepth
  | .powered o _ => o.inversionDepth
  | .inverted o => o.inversionDepth + 1
termination_by structural o => o

def stepsInversionDepth : List (Step (Operation R)) → ℕ
  | [] => 0
  | ⟨o, _⟩ :: rest => max o.inversionDepth (stepsInversionDepth rest)
termination_by structural steps => steps

end

mutual

/-- For each gate inside, in the order of the steps, the controls and exponents around it from the outside in. -/
def wrappers : Operation R → List (List Wrapper)
  | .primitive _ => [[]]
  | .composite ⟨_, _, steps⟩ => stepWrappers steps
  | .controlled o s => o.wrappers.map (.control s :: ·)
  | .powered o e => o.wrappers.map (.power e :: ·)
  | .inverted o => o.wrappers
termination_by structural o => o

def stepWrappers : List (Step (Operation R)) → List (List Wrapper)
  | [] => []
  | ⟨o, _⟩ :: rest => o.wrappers ++ stepWrappers rest
termination_by structural steps => steps

end

theorem inversionDepth_composite_le_iff {c : Circuit R} {n : ℕ} :
    (Operation.composite c).inversionDepth ≤ n ↔ ∀ s ∈ c.steps, s.operation.inversionDepth ≤ n := by
  obtain ⟨name, layout, steps⟩ := c
  change stepsInversionDepth steps ≤ n ↔ _
  induction steps with
  | nil => simp [stepsInversionDepth]
  | cons s rest ih =>
    obtain ⟨o, w⟩ := s
    rw [stepsInversionDepth, max_le_iff, ih, List.forall_mem_cons]

theorem wrappers_composite (c : Circuit R) :
    (Operation.composite c).wrappers = c.steps.flatMap fun s => s.operation.wrappers := by
  obtain ⟨name, layout, steps⟩ := c
  change stepWrappers steps = _
  induction steps with
  | nil => rfl
  | cons s rest ih =>
    obtain ⟨o, w⟩ := s
    rw [stepWrappers, ih, List.flatMap_cons]

theorem inversionFree_composite_iff {c : Circuit R} :
    (Operation.composite c).InversionFree ↔ ∀ s ∈ c.steps, s.operation.InversionFree :=
  ⟨fun | .composite inner => inner, .composite⟩

theorem inversionFree_iff {o : Operation R} : o.InversionFree ↔ o.inversionDepth = 0 := by
  induction o using Operation.induct with
  | primitive g => exact ⟨fun _ => rfl, fun _ => .primitive g⟩
  | composite c ih =>
    rw [inversionFree_composite_iff, ← Nat.le_zero, inversionDepth_composite_le_iff]
    simp only [Nat.le_zero]
    exact forall₂_congr ih
  | controlled o s ih => exact ⟨fun | .controlled inner _ => ih.1 inner, fun h => .controlled (ih.2 h) s⟩
  | powered o e ih => exact ⟨fun | .powered inner _ => ih.1 inner, fun h => .powered (ih.2 h) e⟩
  | inverted o ih => exact ⟨nofun, nofun⟩

end Views

section Pushed

variable {R : Type} [Scalar R]

mutual

/-- The operation, or its adjoint, without inversions: each one is pushed down through the wrappers and the
steps to the gates, and two that meet cancel. -/
def pushed (adjoint : Bool) : Operation R → Operation R
  | .primitive g => .primitive (if adjoint then g.adjoint?.getD g else g)
  | .composite ⟨name, layout, steps⟩ =>
    if adjoint then .composite ⟨name ++ "_dg", layout, (pushedSteps adjoint steps).reverse⟩
    else .composite ⟨name, layout, pushedSteps adjoint steps⟩
  | .controlled o s => .controlled (o.pushed adjoint) s
  | .powered o e => .powered (o.pushed adjoint) e
  | .inverted o => o.pushed !adjoint
termination_by structural o => o

def pushedSteps (adjoint : Bool) : List (Step (Operation R)) → List (Step (Operation R))
  | [] => []
  | ⟨o, w⟩ :: rest => ⟨o.pushed adjoint, w⟩ :: pushedSteps adjoint rest
termination_by structural steps => steps

end

theorem pushedSteps_eq_map (adjoint : Bool) (steps : List (Step (Operation R))) :
    pushedSteps adjoint steps = steps.map fun s => ⟨s.operation.pushed adjoint, s.wires⟩ := by
  induction steps with
  | nil => rfl
  | cons s rest ih =>
    obtain ⟨o, w⟩ := s
    rw [pushedSteps, ih, List.map_cons]

theorem inversionFree_pushed (adjoint : Bool) (o : Operation R) : (o.pushed adjoint).InversionFree := by
  induction o using Operation.induct generalizing adjoint with
  | primitive g => exact .primitive _
  | composite c ih =>
    obtain ⟨name, layout, steps⟩ := c
    have hsteps : ∀ t ∈ pushedSteps adjoint steps, t.operation.InversionFree := by
      rw [pushedSteps_eq_map, List.forall_mem_map]
      exact fun s hs => ih s hs adjoint
    rw [pushed]
    split
    · exact .composite fun t ht => hsteps t (List.mem_reverse.1 ht)
    · exact .composite hsteps
  | controlled o s ih => exact .controlled (ih adjoint) s
  | powered o e ih => exact .powered (ih adjoint) e
  | inverted o ih => exact ih !adjoint

theorem InversionFree.pushed_eq {o : Operation R} (h : o.InversionFree) : o.pushed false = o := by
  induction h with
  | primitive g => rfl
  | @composite c _ ih =>
    obtain ⟨name, layout, steps⟩ := c
    have hsteps : pushedSteps false steps = steps := by
      rw [pushedSteps_eq_map, List.map_congr_left (g := id) fun s hs => ?_, List.map_id]
      rw [ih s hs, id]
    rw [pushed, hsteps]
    rfl
  | controlled _ s ih => rw [pushed, ih]
  | powered _ e ih => rw [pushed, ih]

end Pushed

section Adjoint

variable {R : Type} [Scalar R] {o a : Operation R}

/-- Induction along a successful adjoint. The steps of a composite are given with their images. -/
theorem adjoint_induct {motive : Operation R → Operation R → Prop}
    (primitive : ∀ g b, g.adjoint = .ok b → motive (.primitive g) (.primitive b))
    (composite : ∀ name layout steps images,
      List.Forall₂ (fun s t => motive s.operation t.operation ∧ t.wires = s.wires) steps images →
        motive (.composite ⟨name, layout, steps⟩) (.composite ⟨name ++ "_dg", layout, images.reverse⟩))
    (controlled : ∀ o a s, motive o a → motive (.controlled o s) (.controlled a s))
    (powered : ∀ o a e, motive o a → motive (.powered o e) (.powered a e))
    (inverted : ∀ o, motive (.inverted o) o) (h : o.adjoint = .ok a) : motive o a := by
  induction o using Operation.induct generalizing a with
  | primitive g =>
    obtain ⟨b, hb, same⟩ := bind_eq_ok_iff.1 h
    obtain rfl := pure_eq_ok_iff.1 same
    exact primitive g b hb
  | composite c ih =>
    obtain ⟨name, layout, steps⟩ := c
    obtain ⟨_, hsteps, same⟩ := bind_eq_ok_iff.1 h
    obtain ⟨images, himages, rfl⟩ := adjointSteps_eq_ok_iff.1 hsteps
    obtain rfl := pure_eq_ok_iff.1 same
    rw [List.append_nil]
    refine composite name layout steps images ?_
    clear h hsteps same
    induction himages with
    | nil => exact .nil
    | cons himage _ ihsteps =>
      obtain ⟨hhead, htail⟩ := List.forall_mem_cons.1 ih
      exact .cons ⟨hhead himage.1, himage.2⟩ (ihsteps htail)
  | controlled o s ih =>
    obtain ⟨inner, hinner, same⟩ := bind_eq_ok_iff.1 h
    obtain rfl := pure_eq_ok_iff.1 same
    exact controlled o inner s (ih hinner)
  | powered o e ih =>
    obtain ⟨inner, hinner, same⟩ := bind_eq_ok_iff.1 h
    obtain rfl := pure_eq_ok_iff.1 same
    exact powered o inner e (ih hinner)
  | inverted o =>
    cases h
    exact inverted o

theorem inversionDepth_adjoint (h : o.adjoint = .ok a) : a.inversionDepth = o.inversionDepth - 1 := by
  -- A depth is compared by its bounds, since the one of a composite is a maximum.
  have hbounds : ∀ n, a.inversionDepth ≤ n ↔ o.inversionDepth ≤ n + 1 := by
    intro n
    refine adjoint_induct (motive := fun o a => a.inversionDepth ≤ n ↔ o.inversionDepth ≤ n + 1)
      ?primitive ?composite ?controlled ?powered ?inverted h
    case primitive => exact fun _ _ _ => iff_of_true (Nat.zero_le _) (Nat.zero_le _)
    case composite =>
      intro name layout steps images himages
      simp only [inversionDepth_composite_le_iff, List.mem_reverse]
      constructor
      · intro hbelow s hs
        obtain ⟨t, ht, himage⟩ := exists_of_forall₂_right himages.flip s hs
        exact himage.1.1 (hbelow t ht)
      · intro hbelow t ht
        obtain ⟨s, hs, himage⟩ := exists_of_forall₂_right himages t ht
        exact himage.1.2 (hbelow s hs)
    case controlled => exact fun _ _ _ ih => ih
    case powered => exact fun _ _ _ ih => ih
    case inverted => exact fun _ => Nat.succ_le_succ_iff.symm
  have hleast := (hbounds _).1 le_rfl
  have hmost := (hbounds (o.inversionDepth - 1)).2 (by omega)
  omega

theorem inversionFree_adjoint_iff (h : o.adjoint = .ok a) : a.InversionFree ↔ o.inversionDepth ≤ 1 := by
  rw [inversionFree_iff, inversionDepth_adjoint h, Nat.sub_eq_zero_iff_le]

theorem pushed_adjoint (h : o.adjoint = .ok a) : a.pushed false = o.pushed true := by
  refine adjoint_induct (motive := fun o a => a.pushed false = o.pushed true)
    ?primitive ?composite ?controlled ?powered ?inverted h
  case primitive =>
    intro g b hb
    have hgate : g.adjoint?.getD g = b := by rw [Gate.adjoint_eq_ok_iff.1 hb, Option.getD_some]
    exact congrArg Operation.primitive hgate.symm
  case composite =>
    intro name layout steps images himages
    have hsteps : pushedSteps false images.reverse = (pushedSteps true steps).reverse := by
      rw [pushedSteps_eq_map, pushedSteps_eq_map, List.map_reverse]
      exact congrArg List.reverse (map_eq_map_of_forall₂ himages fun s _ t himage => by rw [himage.1, himage.2])
    exact congrArg (fun list => Operation.composite ⟨name ++ "_dg", layout, list⟩) hsteps
  case controlled => exact fun _ _ s ih => congrArg (Operation.controlled · s) ih
  case powered => exact fun _ _ e ih => congrArg (Operation.powered · e) ih
  case inverted => exact fun _ => rfl

theorem wrappers_adjoint (h : o.adjoint = .ok a) : a.wrappers.Perm o.wrappers := by
  refine adjoint_induct (motive := fun o a => a.wrappers.Perm o.wrappers)
    ?primitive ?composite ?controlled ?powered ?inverted h
  case primitive => exact fun _ _ _ => .refl _
  case composite =>
    intro name layout steps images himages
    rw [wrappers_composite, wrappers_composite]
    refine ((List.reverse_perm images).flatMap_right _).trans ?_
    -- Reversed steps give the gates in another order.
    induction himages with
    | nil => exact .refl _
    | cons himage _ ih =>
      rw [List.flatMap_cons, List.flatMap_cons]
      exact himage.1.append ih
  case controlled => exact fun _ _ _ ih => ih.map _
  case powered => exact fun _ _ _ ih => ih.map _
  case inverted => exact fun _ => .refl _

/-- The second operation is the adjoint of the first one in which just the outermost inversions are undone. -/
structure LosesOutermost (o a : Operation R) : Prop where
  inversionDepth : a.inversionDepth = o.inversionDepth - 1
  inversionFree_iff : a.InversionFree ↔ o.inversionDepth ≤ 1
  pushed : a.pushed false = o.pushed true
  eq_pushed : o.inversionDepth ≤ 1 → a = o.pushed true
  wrappers : a.wrappers.Perm o.wrappers

theorem losesOutermost_of_adjoint (h : o.adjoint = .ok a) : LosesOutermost o a where
  inversionDepth := inversionDepth_adjoint h
  inversionFree_iff := inversionFree_adjoint_iff h
  pushed := pushed_adjoint h
  eq_pushed hdepth := ((inversionFree_adjoint_iff h).2 hdepth).pushed_eq.symm.trans (pushed_adjoint h)
  wrappers := wrappers_adjoint h

/-- An adjoint, of an operation or of a circuit, is free of inversions just where no inversion lies inside
another one, and then it is the form in which all of them are pushed down to the gates. Where inversions are
nested, it keeps those that are not outermost. Each gate keeps the controls and exponents around it. -/
theorem adjoint_inversions :
    (∀ o a : Operation R, o.adjoint = .ok a → LosesOutermost o a) ∧
      ∀ c d : Circuit R, c.inverse = .ok d → LosesOutermost (.composite c) (.composite d) ∧
        ((∀ s ∈ d.steps, s.operation.InversionFree) ↔ ∀ s ∈ c.steps, s.operation.inversionDepth ≤ 1) := by
  refine ⟨fun o a h => losesOutermost_of_adjoint h, fun c d h => ?_⟩
  have hloses := losesOutermost_of_adjoint (Circuit.adjoint_of_inverse h).2
  refine ⟨hloses, ?_⟩
  rw [← inversionFree_composite_iff, ← inversionDepth_composite_le_iff]
  exact hloses.inversionFree_iff

theorem adjoint_inversions_nested :
    (Operation.nested : Operation ℝ).Built ∧ (Circuit.nested : Circuit ℝ).Built ∧
      (∃ a, (Operation.nested : Operation ℝ).adjoint = .ok a ∧ a.InversionFree) ∧
      ∃ d, (Circuit.nested : Circuit ℝ).inverse = .ok d ∧ ∀ s ∈ d.steps, s.operation.InversionFree := by
  have hadjoint : (Operation.nested : Operation ℝ).adjoint = .ok _ := rfl
  have hinverse : (Circuit.nested : Circuit ℝ).inverse = .ok _ := rfl
  have hdepth : (Operation.nested : Operation ℝ).inversionDepth ≤ 1 := le_rfl
  have hdepths : ∀ s ∈ (Circuit.nested : Circuit ℝ).steps, s.operation.inversionDepth ≤ 1 :=
    List.forall_mem_cons.2 ⟨hdepth, List.forall_mem_singleton.2 (Nat.zero_le 1)⟩
  obtain ⟨hoperations, hcircuits⟩ := adjoint_inversions (R := ℝ)
  exact ⟨nested_built, Circuit.nested_built, ⟨_, hadjoint, (hoperations _ _ hadjoint).inversionFree_iff.2 hdepth⟩,
    _, hinverse, (hcircuits _ _ hinverse).2.2 hdepths⟩

end Adjoint

def twiceInverted {R : Type} : Operation R :=
  .inverted (.powered (.inverted (.powered (.primitive (.fixed .s)) 2)) 3)

/-- The adjoint of an inversion with another one inside holds the inner one. -/
theorem adjoint_twiceInverted : (twiceInverted : Operation ℝ).Built ∧ ∃ a : Operation ℝ,
    twiceInverted.adjoint = .ok a ∧ a = .powered (.inverted (.powered (.primitive (.fixed .s)) 2)) 3 ∧
      ¬ a.InversionFree := by
  have hget : (Session.run [.primitive (.fixed .s), .power 0 2, .inverse 1, .power 2 3, .inverse 3] :
      Session ℝ).operations[4]? = some .twiceInverted := by cbv
  have hadjoint : (twiceInverted : Operation ℝ).adjoint = .ok _ := rfl
  refine ⟨⟨_, List.mem_of_getElem? hget⟩, _, hadjoint, rfl, fun hfree => ?_⟩
  have hdepth : (2 : ℕ) ≤ 1 := (inversionFree_adjoint_iff hadjoint).1 hfree
  omega

end Operation
end QuantumCircuits
