import Mathlib
import QuantumCircuits.Proofs.Gate.TokenNames
import QuantumCircuits.Proofs.Number.Exact

/-! Families that are bound one after the other into the same bindings. A call is accepted if it has a value for each
element, and changes nothing if it is not. After any calls, an element reads the value of the last accepted call of its
family's name that reaches it, and no other family gets in its way. -/

namespace QuantumCircuits

variable {R : Type}

structure FamilyCall (R : Type) where
  family : ParamFamily
  values : List R

namespace FamilyCall

def Accepted (call : FamilyCall R) : Prop := call.values.length = call.family.length

instance (call : FamilyCall R) : Decidable call.Accepted :=
  inferInstanceAs (Decidable (call.values.length = call.family.length))

/-- The call on bindings that it changes in place: the values are counted first, and then bound one by one. -/
def perform (call : FamilyCall R) : ExceptT Fault (StateM (Bindings R)) Unit := do
  if call.values.length ≠ call.family.length then
    throw (.state (.valueCount call.values.length call.family.name call.family.length))
  call.values.zipIdx.forM fun (value, i) => modify fun b => b.insert (call.family.tokenName i) value

def value? (call : FamilyCall R) (name : String) (i : ℕ) : Option R :=
  if call.Accepted ∧ call.family.name = name then call.values[i]? else none

/-- What element `i` of the families of a name is bound to by the last call that binds it. -/
def lastValue? (calls : List (FamilyCall R)) (name : String) (i : ℕ) : Option R :=
  calls.reverse.findSome? fun call => call.value? name i

variable {call : FamilyCall R} {calls : List (FamilyCall R)} {name : String} {i : ℕ}

theorem run_forM_modify {α σ : Type} (f : σ → α → σ) (xs : List α) (s : σ) :
    ((xs.forM fun x => modify fun s => f s x : ExceptT Fault (StateM σ) Unit).run.run s) = (.ok (), xs.foldl f s) := by
  induction xs generalizing s with
  | nil => rfl
  | cons x xs ih => exact ih (f s x)

theorem run_perform (call : FamilyCall R) (b : Bindings R) : call.perform.run.run b =
    match b.insertFamily call.family call.values with
    | .ok b' => (.ok (), b')
    | .error fault => (.error fault, b) := by
  rw [Bindings.insertFamily_eq, perform]
  by_cases h : call.values.length = call.family.length
  · rw [if_neg (not_not.2 h), if_pos h]
    exact run_forM_modify (fun b (value, i) => b.insert (call.family.tokenName i) value) _ b
  · rw [if_pos h, if_neg h]
    rfl

theorem lastValue?_append (front back : List (FamilyCall R)) (name : String) (i : ℕ) :
    lastValue? (front ++ back) name i = (lastValue? back name i).or (lastValue? front name i) := by
  rw [lastValue?, List.reverse_append, List.findSome?_append, lastValue?, lastValue?]

theorem lastValue?_cons (call : FamilyCall R) (calls : List (FamilyCall R)) (name : String) (i : ℕ) :
    lastValue? (call :: calls) name i = (lastValue? calls name i).or (call.value? name i) := by
  rw [lastValue?, List.reverse_cons, List.findSome?_append, List.findSome?_singleton, lastValue?]

theorem lastValue?_of_ne (h : ∀ call ∈ calls, call.family.name ≠ name) : lastValue? calls name i = none := by
  rw [lastValue?, List.findSome?_eq_none_iff]
  intro call hcall
  rw [value?, if_neg fun hvalue => h call (List.mem_reverse.1 hcall) hvalue.2]

theorem lastValue?_of_pairwise (h : calls.Pairwise fun c d => c.family.name ≠ d.family.name) (hmem : call ∈ calls)
    (haccepted : call.Accepted) : lastValue? calls call.family.name i = call.values[i]? := by
  obtain ⟨front, back, rfl⟩ := List.append_of_mem hmem
  obtain ⟨_, hcons, hacross⟩ := List.pairwise_append.1 h
  obtain ⟨hback, _⟩ := List.pairwise_cons.1 hcons
  have hfront : ∀ c ∈ front, c.family.name ≠ call.family.name := fun c hc => hacross c hc call List.mem_cons_self
  -- No other call has a word on the elements of the family.
  rw [lastValue?_append, lastValue?_cons, lastValue?_of_ne fun c hc => (hback c hc).symm, lastValue?_of_ne hfront,
    Option.none_or, Option.or_none, value?, if_pos ⟨haccepted, rfl⟩]

end FamilyCall

namespace Bindings
open FamilyCall

variable {b : Bindings R} {call : FamilyCall R} {calls : List (FamilyCall R)} {name : String}

def afterCall (b : Bindings R) (call : FamilyCall R) : Bindings R := (call.perform.run.run b).2

def afterCalls (b : Bindings R) (calls : List (FamilyCall R)) : Bindings R := calls.foldl afterCall b

theorem afterCall_of_accepted (h : call.Accepted) : b.afterCall call = b.insertFrom call.family 0 call.values := by
  have hlength : call.values.length = call.family.length := h
  rw [afterCall, run_perform, insertFamily_eq, if_pos hlength]

theorem afterCall_of_not_accepted (h : ¬ call.Accepted) : b.afterCall call = b := by
  have hlength : call.values.length ≠ call.family.length := h
  rw [afterCall, run_perform, insertFamily_eq, if_neg hlength]

theorem get?_afterCall (b : Bindings R) (call : FamilyCall R) (f : ParamFamily) (i : ℕ) :
    (b.afterCall call).get? (f.tokenName i) = (call.value? f.name i).or (b.get? (f.tokenName i)) := by
  by_cases haccepted : call.Accepted
  · rw [afterCall_of_accepted haccepted]
    by_cases hname : call.family.name = f.name
    · rw [value?, if_pos ⟨haccepted, hname⟩, ParamFamily.tokenName_inj.2 ⟨hname.symm, rfl⟩]
      by_cases hi : i < call.values.length
      · have hown : (b.insertFrom call.family 0 call.values).get? (call.family.tokenName (0 + i)) = call.values[i]? :=
          get?_insertFrom hi
        rw [Nat.zero_add] at hown
        rw [hown, List.getElem?_eq_getElem hi, Option.some_or]
      · rw [List.getElem?_eq_none (not_lt.1 hi), Option.none_or]
        refine get?_insertFrom_of_ne fun j _ hj same => hi ?_
        rwa [(ParamFamily.tokenName_inj.1 same).2, ← Nat.zero_add call.values.length]
    · rw [value?, if_neg fun h => hname h.2, Option.none_or]
      exact get?_insertFrom_of_ne fun j _ _ same => hname (ParamFamily.tokenName_inj.1 same).1.symm
  · rw [afterCall_of_not_accepted haccepted, value?, if_neg fun h => haccepted h.1, Option.none_or]

theorem get?_afterCalls (b : Bindings R) (calls : List (FamilyCall R)) (f : ParamFamily) (i : ℕ) :
    (b.afterCalls calls).get? (f.tokenName i) = (lastValue? calls f.name i).or (b.get? (f.tokenName i)) := by
  induction calls generalizing b with
  | nil => rfl
  | cons call calls ih =>
    change ((b.afterCall call).afterCalls calls).get? _ = _
    rw [ih, get?_afterCall, lastValue?_cons, Option.or_assoc]

theorem get?_afterCalls_of_ne (h : ∀ call ∈ calls, ∀ i < call.family.length, name ≠ call.family.tokenName i) :
    (b.afterCalls calls).get? name = b.get? name := by
  induction calls generalizing b with
  | nil => rfl
  | cons call calls ih =>
    obtain ⟨hcall, hcalls⟩ := List.forall_mem_cons.1 h
    have hstep : (b.afterCall call).get? name = b.get? name := by
      by_cases haccepted : call.Accepted
      · rw [afterCall_of_accepted haccepted]
        refine get?_insertFrom_of_ne fun i _ hi => hcall i ?_
        rwa [← (haccepted : call.values.length = call.family.length), ← Nat.zero_add call.values.length]
      · rw [afterCall_of_not_accepted haccepted]
    exact (ih hcalls).trans hstep

theorem afterCalls_filter (b : Bindings R) (calls : List (FamilyCall R)) :
    b.afterCalls (calls.filter fun call => call.Accepted) = b.afterCalls calls := by
  induction calls generalizing b with
  | nil => rfl
  | cons call calls ih =>
    change _ = (b.afterCall call).afterCalls calls
    rw [List.filter_cons]
    split
    · exact ih _
    · next h => rw [afterCall_of_not_accepted (by simpa using h), ih]

end Bindings

namespace ParamFamily
open FamilyCall

/-- What any calls leave the elements of families bound to. The name of an element gives the name of its family and its
index back. An element that a call binds takes on its value, times the coefficient one, from the last such call, and
every other name keeps its binding. So where no two calls have families of one name, each accepted call binds the
elements of its family for good. A call in place does what the function on bindings does. It fails exactly if it has
not as many values as the family has elements; then it leaves the bindings as they are, so that the failed calls could have
been left out. -/
theorem get_bind_last [Scalar R] (b : Bindings R) (calls : List (FamilyCall R)) :
    (∀ (f g : ParamFamily) (i j : ℕ), f.tokenName i = g.tokenName j → f.name = g.name ∧ i = j) ∧
    (∀ (f : ParamFamily) (i : ℕ), (b.afterCalls calls).get? (f.tokenName i) =
        (lastValue? calls f.name i).or (b.get? (f.tokenName i)) ∧
      ∀ v, lastValue? calls f.name i = some v → (f.get i).bind (b.afterCalls calls) = .ok (.value (1 * v))) ∧
    (∀ name, (∀ call ∈ calls, ∀ i < call.family.length, name ≠ call.family.tokenName i) →
      (b.afterCalls calls).get? name = b.get? name) ∧
    ((calls.Pairwise fun c d => c.family.name ≠ d.family.name) → ∀ call ∈ calls, call.Accepted →
      ∀ (i : ℕ) (hi : i < call.values.length),
        (call.family.get i).bind (b.afterCalls calls) = .ok (.value (1 * call.values[i]))) ∧
    (∀ call : FamilyCall R, call.perform.run.run b =
      match b.insertFamily call.family call.values with
      | .ok b' => (.ok (), b')
      | .error fault => (.error fault, b)) ∧
    (∀ call : FamilyCall R, ¬ call.Accepted ↔ ∃ fault, call.perform.run.run b = (.error fault, b)) ∧
    b.afterCalls calls = b.afterCalls (calls.filter fun call => call.Accepted) := by
  have hbind : ∀ (f : ParamFamily) (i : ℕ) (v : R), lastValue? calls f.name i = some v →
      (f.get i).bind (b.afterCalls calls) = .ok (.value (1 * v)) := by
    intro f i v hlast
    have hget : (b.afterCalls calls).get? (f.tokenName i) = some v := by
      rw [Bindings.get?_afterCalls, hlast, Option.some_or]
    rw [ParamFamily.get, Param.ofToken, Param.bind, hget]
  refine ⟨fun f g i j => tokenName_inj.1, fun f i => ⟨b.get?_afterCalls calls f i, hbind f i⟩,
    fun name => Bindings.get?_afterCalls_of_ne, fun hnames call hmem haccepted i hi => ?_,
    fun call => run_perform call b, fun call => ?_, (b.afterCalls_filter calls).symm⟩
  · refine hbind call.family i _ ?_
    rw [lastValue?_of_pairwise hnames hmem haccepted, List.getElem?_eq_getElem hi]
  · rw [run_perform, Bindings.insertFamily_eq]
    split_ifs with h
    · exact iff_of_false (not_not.2 h) fun ⟨_, failed⟩ => nomatch congrArg Prod.fst failed
    · exact iff_of_true h ⟨_, rfl⟩

noncomputable def crowdedCalls : List (FamilyCall ℝ) :=
  [⟨⟨"a", 2⟩, [0, 1]⟩, ⟨⟨"a[1]", 1⟩, [Scalar.two]⟩, ⟨⟨"a", 2⟩, [0, Scalar.pi]⟩, ⟨⟨"a", 2⟩, [1]⟩]

theorem get_bind_last_crowded :
    ((⟨"a", 2⟩ : ParamFamily).get 1).bind (Bindings.empty.afterCalls crowdedCalls) = .ok (.value Scalar.pi) ∧
    ((⟨"a[1]", 1⟩ : ParamFamily).get 0).bind (Bindings.empty.afterCalls crowdedCalls) = .ok (.value Scalar.two) ∧
    ((crowdedCalls.take 2).Pairwise fun c d => c.family.name ≠ d.family.name) ∧
    ((⟨"a", 2⟩ : ParamFamily).get 1).bind (Bindings.empty.afterCalls (crowdedCalls.take 2)) = .ok (.value 1) := by
  obtain ⟨_, hread, _⟩ := get_bind_last Bindings.empty crowdedCalls
  obtain ⟨_, _, _, hdistinct, _⟩ := get_bind_last Bindings.empty (crowdedCalls.take 2)
  have hagain := (hread ⟨"a", 2⟩ 1).2 Scalar.pi (by simp [lastValue?, crowdedCalls, value?, Accepted])
  have hnested := (hread ⟨"a[1]", 1⟩ 0).2 Scalar.two (by simp [lastValue?, crowdedCalls, value?, Accepted])
  have hnames : (crowdedCalls.take 2).Pairwise fun c d => c.family.name ≠ d.family.name := by simp [crowdedCalls]
  have hfirst := hdistinct hnames ⟨⟨"a", 2⟩, [0, 1]⟩ List.mem_cons_self rfl 1 (by decide)
  rw [one_mul] at hagain hnested hfirst
  exact ⟨hagain, hnested, hnames, hfirst⟩

end ParamFamily
end QuantumCircuits
