import Mathlib
import QuantumCircuits.Circuit.Basic
import QuantumCircuits.Proofs.Success

/-! Tokens and what binding makes of them. The search for tokens, their list and their replacement are
three recursions over the same tree. They agree: binding fills in exactly the parameters that the list
names, it fails at the first of them without a value, and what it returns has none left. -/

namespace QuantumCircuits

section Names

theorem nodup_eraseDups (names : List String) : names.eraseDups.Nodup := by
  induction hlength : names.length using Nat.strong_induction_on generalizing names with
  | _ n ih =>
    cases names with
    | nil => exact List.nodup_nil
    | cons x names =>
      rw [List.eraseDups_cons, List.nodup_cons]
      refine ⟨by simp, ih _ ?_ _ rfl⟩
      rw [← hlength, List.length_cons]
      exact Nat.lt_succ_of_le (List.length_filter_le _ _)

theorem mem_sortedNames {name : String} {names : List String} : name ∈ sortedNames names ↔ name ∈ names := by
  rw [sortedNames, List.mem_mergeSort, List.mem_eraseDups]

theorem pairwise_sortedNames (names : List String) : (sortedNames names).Pairwise (· ≤ ·) := by
  have htotal : (sortedNames names).Pairwise fun a b => decide (a ≤ b) = true :=
    List.pairwise_mergeSort
      (fun a b c hab hbc => by simpa using le_trans (of_decide_eq_true hab) (of_decide_eq_true hbc))
      (fun a b => by simpa using le_total a b) names.eraseDups
  exact htotal.imp of_decide_eq_true

theorem sortedNames_congr {names others : List String} (h : ∀ x, x ∈ names ↔ x ∈ others) :
    sortedNames names = sortedNames others := by
  have hperm : names.eraseDups.Perm others.eraseDups := by
    rw [List.perm_ext_iff_of_nodup (nodup_eraseDups names) (nodup_eraseDups others)]
    simpa only [List.mem_eraseDups] using h
  refine List.Perm.eq_of_pairwise (fun a b _ _ => le_antisymm) (pairwise_sortedNames names)
    (pairwise_sortedNames others) ?_
  exact (List.mergeSort_perm _ _).trans (hperm.trans (List.mergeSort_perm _ _).symm)

theorem sortedNames_eq_nil_iff {names : List String} : sortedNames names = [] ↔ names = [] := by
  simp only [List.eq_nil_iff_forall_not_mem, mem_sortedNames]

end Names

section Symbolic

variable {R : Type}

theorem Gate.isSymbolic_eq_false_iff {g : Gate R} : g.isSymbolic = false ↔ g.tokenNames = [] := by
  have hparam (θ : Param R) : θ.isSymbolic = false ↔ θ.tokenNames = [] := by
    cases θ <;> simp [Param.isSymbolic, Param.tokenNames]
  cases g with
  | angle kind θ => exact hparam θ
  | evolution m time => exact hparam time
  | _ => exact ⟨fun _ => rfl, fun _ => rfl⟩

namespace Operation

theorem stepsSymbolic_eq_false_iff {steps : List (Step (Operation R))} :
    stepsSymbolic steps = false ↔ ∀ s ∈ steps, s.operation.isSymbolic = false := by
  induction steps with
  | nil => simp [stepsSymbolic]
  | cons s rest ih =>
    obtain ⟨o, w⟩ := s
    rw [stepsSymbolic, Bool.or_eq_false_iff, ih, List.forall_mem_cons]

theorem isSymbolic_eq_false_iff {o : Operation R} : o.isSymbolic = false ↔ o.tokenNames = [] := by
  induction o using Operation.induct with
  | primitive g => exact Gate.isSymbolic_eq_false_iff
  | composite c ih =>
    rw [tokenNames_composite, List.flatMap_eq_nil_iff]
    obtain ⟨name, layout, steps⟩ := c
    exact stepsSymbolic_eq_false_iff.trans (forall₂_congr ih)
  | controlled o s ih => exact ih
  | powered o e ih => exact ih
  | inverted o ih => exact ih

end Operation

end Symbolic

section Filling

variable {R : Type} [Scalar R]

def Param.fill (value : String → R) : Param R → Param R
  | .value v => .value v
  | .token name coefficient => .value (coefficient * value name)

def Gate.fill (value : String → R) : Gate R → Gate R
  | .angle kind θ => .angle kind (θ.fill value)
  | .evolution hamiltonian time => .evolution hamiltonian (time.fill value)
  | g => g

namespace Operation

mutual

def fill (value : String → R) : Operation R → Operation R
  | .primitive g => .primitive (g.fill value)
  | .composite ⟨name, layout, steps⟩ => .composite ⟨name, layout, fillSteps value steps⟩
  | .controlled o s => .controlled (o.fill value) s
  | .powered o e => .powered (o.fill value) e
  | .inverted o => .inverted (o.fill value)
termination_by structural o => o

def fillSteps (value : String → R) : List (Step (Operation R)) → List (Step (Operation R))
  | [] => []
  | ⟨o, w⟩ :: rest => ⟨o.fill value, w⟩ :: fillSteps value rest
termination_by structural steps => steps

end

end Operation

def Circuit.fill (value : String → R) (c : Circuit R) : Circuit R :=
  { c with steps := Operation.fillSteps value c.steps }

theorem Gate.tokenNames_fill (value : String → R) (g : Gate R) : (g.fill value).tokenNames = [] := by
  have hparam (θ : Param R) : (θ.fill value).tokenNames = [] := by
    cases θ <;> rfl
  cases g with
  | angle kind θ => exact hparam θ
  | evolution m time => exact hparam time
  | _ => rfl

namespace Operation

theorem fillSteps_eq_map (value : String → R) (steps : List (Step (Operation R))) :
    fillSteps value steps = steps.map fun s => ⟨s.operation.fill value, s.wires⟩ := by
  induction steps with
  | nil => rfl
  | cons s rest ih =>
    obtain ⟨o, w⟩ := s
    rw [fillSteps, ih, List.map_cons]

theorem stepTokenNames_fillSteps {value : String → R} {steps : List (Step (Operation R))}
    (h : ∀ s ∈ steps, (s.operation.fill value).tokenNames = []) :
    stepTokenNames (fillSteps value steps) = [] := by
  induction steps with
  | nil => rfl
  | cons s rest ih =>
    obtain ⟨o, w⟩ := s
    obtain ⟨hhead, hrest⟩ := List.forall_mem_cons.1 h
    rw [fillSteps, stepTokenNames, ih hrest, hhead, List.append_nil]

theorem tokenNames_fill (value : String → R) (o : Operation R) : (o.fill value).tokenNames = [] := by
  induction o using Operation.induct with
  | primitive g => exact g.tokenNames_fill value
  | composite c ih =>
    obtain ⟨name, layout, steps⟩ := c
    exact stepTokenNames_fillSteps ih
  | controlled o s ih => exact ih
  | powered o e ih => exact ih
  | inverted o ih => exact ih

end Operation

end Filling

section Resolution

variable {R : Type}

namespace Bindings

variable {α β γ : Type} {b : Bindings R} {names : List String}

/-- The first of the names that has no value is reported. If all have one, the result is as given. -/
def resolved (b : Bindings R) (names : List String) (y : α) : Except Fault α :=
  match names.find? fun name => (b.get? name).isNone with
  | some name => .error (.unbound name)
  | none => .ok y

def Gives (b : Bindings R) (value : String → R) (names : List String) : Prop :=
  ∀ name ∈ names, ∀ v, b.get? name = some v → value name = v

theorem resolved_map (f : α → β) (y : α) :
    b.resolved names (f y) = (do return f (← b.resolved names y)) := by
  unfold resolved
  cases names.find? fun name => (b.get? name).isNone <;> rfl

theorem resolved_append (others : List String) (f : α → β → γ) (y : α) (z : β) :
    b.resolved (names ++ others) (f y z) = (do
      let y ← b.resolved names y
      let z ← b.resolved others z
      return f y z) := by
  unfold resolved
  rw [List.find?_append]
  cases names.find? fun name => (b.get? name).isNone with
  | some name => rfl
  | none => cases others.find? fun name => (b.get? name).isNone <;> rfl

theorem resolved_eq_ok_iff {y z : α} :
    b.resolved names y = .ok z ↔ (∀ name ∈ names, (b.get? name).isSome = true) ∧ y = z := by
  have hbound : (names.find? fun name => (b.get? name).isNone) = none ↔
      ∀ name ∈ names, (b.get? name).isSome = true := by
    simp only [List.find?_eq_none, Bool.not_eq_true, Option.isNone_eq_false_iff]
  unfold resolved
  split
  · next name hname =>
    have hnot : ¬ ∀ name ∈ names, (b.get? name).isSome = true := fun h =>
      Option.some_ne_none name (hname.symm.trans (hbound.2 h))
    exact ⟨nofun, fun h => absurd h.1 hnot⟩
  · next hnone => exact ⟨fun h => ⟨hbound.1 hnone, Except.ok.inj h⟩, fun h => congrArg _ h.2⟩

theorem resolved_eq_error {y : α} {fault : Fault} (h : b.resolved names y = .error fault) :
    ∃ name ∈ names, b.get? name = none ∧ fault = .unbound name := by
  unfold resolved at h
  split at h
  · next name hname =>
    have hnone := List.find?_some hname
    exact ⟨name, List.mem_of_find?_eq_some hname, Option.isNone_iff_eq_none.1 hnone,
      (Except.error.inj h).symm⟩
  · cases h

theorem resolved_congr {b' : Bindings R} (h : ∀ name ∈ names, b.get? name = b'.get? name) (y : α) :
    b.resolved names y = b'.resolved names y := by
  have hfind : (names.find? fun name => (b.get? name).isNone) =
      names.find? fun name => (b'.get? name).isNone :=
    List.find?_congr fun name hname => by rw [h name hname]
  unfold resolved
  rw [hfind]

end Bindings

variable [Scalar R] {b : Bindings R} {value : String → R}

theorem Param.bind_eq {θ : Param R} (h : b.Gives value θ.tokenNames) :
    θ.bind b = b.resolved θ.tokenNames (θ.fill value) := by
  cases θ with
  | value v => rfl
  | token name coefficient =>
    unfold Bindings.resolved
    cases hname : b.get? name with
    | none => simp [bind, tokenNames, hname]
    | some v => simp [bind, tokenNames, fill, hname, h name List.mem_cons_self v hname]

theorem Gate.bind_eq {g : Gate R} (h : b.Gives value g.tokenNames) :
    g.bind b = b.resolved g.tokenNames (g.fill value) := by
  have hparam (f : Param R → Gate R) {θ : Param R} (hθ : b.Gives value θ.tokenNames) :
      (θ.bind b).map f = b.resolved θ.tokenNames (f (θ.fill value)) := by
    rw [Param.bind_eq hθ, Bindings.resolved_map f]
    cases b.resolved θ.tokenNames (θ.fill value) <;> rfl
  cases g with
  | angle kind θ => exact hparam (Gate.angle kind) h
  | evolution m time => exact hparam (Gate.evolution m) h
  | _ => rfl

namespace Operation

theorem bindSteps_eq {steps : List (Step (Operation R))}
    (hsteps : ∀ s ∈ steps, b.Gives value s.operation.tokenNames →
      s.operation.bind b = b.resolved s.operation.tokenNames (s.operation.fill value))
    (h : b.Gives value (stepTokenNames steps)) :
    bindSteps b steps = b.resolved (stepTokenNames steps) (fillSteps value steps) := by
  induction steps with
  | nil => rfl
  | cons s rest ih =>
    obtain ⟨o, w⟩ := s
    obtain ⟨hhead, hrest⟩ := List.forall_mem_cons.1 hsteps
    rw [bindSteps, hhead fun name hname => h name (List.mem_append_left _ hname),
      ih hrest fun name hname => h name (List.mem_append_right _ hname), stepTokenNames, fillSteps]
    let cons (o : Operation R) (rest : List (Step (Operation R))) := ⟨o, w⟩ :: rest
    exact (Bindings.resolved_append _ cons _ _).symm

theorem bind_eq {o : Operation R} (h : b.Gives value o.tokenNames) :
    o.bind b = b.resolved o.tokenNames (o.fill value) := by
  induction o using Operation.induct with
  | primitive g =>
    rw [bind_primitive, Gate.bind_eq h]
    exact (Bindings.resolved_map primitive _).symm
  | composite c ih =>
    obtain ⟨name, layout, steps⟩ := c
    rw [bind_composite, bindSteps_eq ih h]
    exact (Bindings.resolved_map (fun steps => composite ⟨name, layout, steps⟩) _).symm
  | controlled o s ih =>
    rw [bind_controlled, ih h]
    exact (Bindings.resolved_map (fun o => controlled o s) _).symm
  | powered o e ih =>
    rw [bind_powered, ih h]
    exact (Bindings.resolved_map (fun o => powered o e) _).symm
  | inverted o ih =>
    rw [bind_inverted, ih h]
    exact (Bindings.resolved_map inverted _).symm

theorem bind_of_tokenNames {o : Operation R} (h : o.tokenNames = []) (b : Bindings R) : o.bind b = .ok o :=
  bind_of_not_symbolic (isSymbolic_eq_false_iff.2 h)

end Operation

namespace Circuit

theorem bind_eq {c : Circuit R} (h : b.Gives value (Operation.stepTokenNames c.steps)) :
    c.bind b = b.resolved (Operation.stepTokenNames c.steps) (c.fill value) := by
  have hsteps := Operation.bindSteps_eq (fun _ _ hs => Operation.bind_eq hs) h
  rw [bind, hsteps]
  exact (Bindings.resolved_map (fun steps => ({ c with steps } : Circuit R)) _).symm

theorem bind_of_tokenNames {c : Circuit R} (h : Operation.stepTokenNames c.steps = []) (b : Bindings R) :
    c.bind b = .ok c := by
  rw [Operation.stepTokenNames_eq_flatMap, List.flatMap_eq_nil_iff] at h
  have hsteps : Operation.stepsSymbolic c.steps = false :=
    Operation.stepsSymbolic_eq_false_iff.2 fun s hs => Operation.isSymbolic_eq_false_iff.2 (h s hs)
  rw [bind, Operation.bindSteps_of_not_symbolic hsteps]
  rfl

end Circuit

/-- Something with tokens is bound by filling in their values: this succeeds if all of them are bound,
it reads no other values, what it gives has no tokens and stays as it is, and otherwise one of the
unbound tokens is reported. -/
structure BoundByFilling {α : Type} (tokens : α → List String) (fill : (String → R) → α → α)
    (bind : Bindings R → α → Except Fault α) (x : α) : Prop where
  isOk_iff : ∀ b, (bind b x).isOk = true ↔ ∀ name ∈ tokens x, ∃ v, b.get? name = some v
  filled : ∀ b y, bind b x = .ok y → ∀ value : String → R,
    (∀ name ∈ tokens x, b.get? name = some (value name)) → y = fill value x
  closed : ∀ b y, bind b x = .ok y → tokens y = [] ∧ ∀ b', bind b' y = .ok y
  congr : ∀ b b' : Bindings R, (∀ name ∈ tokens x, b.get? name = b'.get? name) → bind b x = bind b' x
  unbound : ∀ b fault, bind b x = .error fault →
    ∃ name ∈ tokens x, b.get? name = none ∧ fault = .unbound name

theorem BoundByFilling.of_resolved {α : Type} {names : α → List String} {fill : (String → R) → α → α}
    {bind : Bindings R → α → Except Fault α} {x : α}
    (hbind : ∀ b value, b.Gives value (names x) → bind b x = b.resolved (names x) (fill value x))
    (hfill : ∀ value, names (fill value x) = [])
    (hclosed : ∀ y, names y = [] → ∀ b, bind b y = .ok y) :
    BoundByFilling (fun x => sortedNames (names x)) fill bind x := by
  -- Any function will do that agrees with the bindings; this one is zero elsewhere.
  let lookup (b : Bindings R) (name : String) : R := (b.get? name).getD 0
  have hlookup (b : Bindings R) : b.Gives (lookup b) (names x) := fun name _ v hv => by
    simp only [lookup, hv, Option.getD_some]
  constructor
  · intro b
    simp only [mem_sortedNames, ← Option.isSome_iff_exists, isOk_eq_true_iff, hbind b _ (hlookup b),
      Bindings.resolved_eq_ok_iff, exists_and_left, exists_eq', and_true]
  · intro b y hy value hvalue
    simp only [mem_sortedNames] at hvalue
    have hgives : b.Gives value (names x) := fun name hname v hv =>
      Option.some.inj ((hvalue name hname).symm.trans hv)
    rw [hbind b value hgives] at hy
    exact (Bindings.resolved_eq_ok_iff.1 hy).2.symm
  · intro b y hy
    rw [hbind b _ (hlookup b)] at hy
    obtain ⟨_, rfl⟩ := Bindings.resolved_eq_ok_iff.1 hy
    exact ⟨sortedNames_eq_nil_iff.2 (hfill _), hclosed _ (hfill _)⟩
  · intro b b' hbb
    simp only [mem_sortedNames] at hbb
    have hgives : b'.Gives (lookup b) (names x) := fun name hname v hv =>
      hlookup b name hname v ((hbb name hname).trans hv)
    rw [hbind b _ (hlookup b), hbind b' _ hgives, Bindings.resolved_congr hbb]
  · intro b fault hfault
    rw [hbind b _ (hlookup b)] at hfault
    simpa only [mem_sortedNames] using Bindings.resolved_eq_error hfault

/-- Operations and circuits are bound by filling in the values of their tokens. -/
theorem bound_by_filling :
    (∀ o : Operation R, BoundByFilling Operation.tokens Operation.fill (fun b o => o.bind b) o) ∧
    ∀ c : Circuit R, BoundByFilling Circuit.tokens Circuit.fill (fun b c => c.bind b) c := by
  constructor
  · intro o
    exact .of_resolved (fun _ _ => Operation.bind_eq) (fun value => o.tokenNames_fill value)
      fun _ => Operation.bind_of_tokenNames
  · intro c
    have hfill (value : String → R) : Operation.stepTokenNames (c.fill value).steps = [] :=
      Operation.stepTokenNames_fillSteps fun s _ => s.operation.tokenNames_fill value
    have hbound : BoundByFilling (fun c : Circuit R => sortedNames (Operation.stepTokenNames c.steps))
        Circuit.fill (fun b c => c.bind b) c :=
      .of_resolved (fun _ _ => Circuit.bind_eq) hfill fun _ => Circuit.bind_of_tokenNames
    exact hbound

end Resolution

end QuantumCircuits
