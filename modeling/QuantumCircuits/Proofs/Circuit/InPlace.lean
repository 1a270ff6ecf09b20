import Mathlib
import QuantumCircuits.Circuit.InPlace
import QuantumCircuits.Proofs.Success

/-! Calls that change a circuit in place do what the functions do that give a new circuit. They check before they change
anything, and so leave the circuit as it is where they fail. -/

namespace QuantumCircuits.Circuit.Edit

variable {R α : Type}

/-- The call gives what the function gives, and where the function fails it leaves the circuit as it is. -/
def Does (x : Edit R α) (f : Circuit R → Except Fault (α × Circuit R)) : Prop :=
  ∀ c, x.run.run c = match f c with
    | .ok (a, d) => (.ok a, d)
    | .error fault => (.error fault, c)

variable {x : Edit R α} {f : Circuit R → Except Fault (α × Circuit R)} {c : Circuit R} {fault : Fault}

theorem Does.of_error (h : Does x f) (hfault : (x.run.run c).1 = .error fault) : (x.run.run c).2 = c := by
  rw [h c] at hfault ⊢
  cases hf : f c with
  | ok p =>
    rw [hf] at hfault
    cases hfault
  | error other => rfl

-- Of two calls in a row this need not hold: the first register stays where the second one is refused.
example : ((do let _ ← addRegister "q" 2; addRegister "r" 0 : Edit R Register).run.run (.empty "c")).2.wires = 2 := rfl

theorem Does.of_ok (h : Does x f) (a : α) (hok : (x.run.run c).1 = .ok a) : f c = .ok (a, (x.run.run c).2) := by
  rw [h c] at hok ⊢
  cases hf : f c with
  | ok p =>
    rw [hf] at hok
    cases hok
    rfl
  | error fault =>
    rw [hf] at hok
    cases hok

theorem does_addRegister (name : String) (size : ℕ) :
    Does (addRegister name size : Edit R Register) fun c => c.addRegister name size := by
  intro c
  cases size with
  | zero => rfl
  | succ size => rfl

theorem run_checkWire (o : Operation R) (wires : List ℕ) (w i : ℕ) (c : Circuit R) :
    (checkWire o wires w i).run.run c = (if c.wires ≤ w then .error (.wireRange w c.wires)
      else if (wires.take i).contains w then .error (.repeatedWire w o.name) else .ok (), c) := by
  rw [checkWire, run_bind run_get]
  split_ifs <;> rfl

theorem run_checkWires (o : Operation R) (c : Circuit R) (seen wires : List ℕ) :
    ((wires.zipIdx seen.length).forM fun p => checkWire o (seen.reverse ++ wires) p.1 p.2 : Edit R Unit).run.run c =
      (checkWires o c.wires seen wires, c) := by
  -- The wires that are checked already stand in front, and their number is the place of the next one.
  induction wires generalizing seen with
  | nil => rfl
  | cons w ws ih =>
    have hfirst := run_checkWire o (seen.reverse ++ w :: ws) w seen.length c
    have hrest := ih (w :: seen)
    have hbefore : ((seen.reverse ++ w :: ws).take seen.length).contains w = seen.contains w := by simp
    rw [List.reverse_cons, List.append_assoc] at hrest
    rw [hbefore] at hfirst
    rw [checkWires]
    split_ifs at hfirst ⊢ with hrange hrepeated
    · exact run_bind_of_error hfirst
    · exact run_bind_of_error hfirst
    · exact (run_bind hfirst).trans hrest

theorem append_eq_map (o : Operation R) (wires : List ℕ) (c : Circuit R) :
    c.append o wires = (checkStep c.wires ⟨o, wires⟩).map fun _ => { c with steps := c.steps ++ [⟨o, wires⟩] } := by
  rw [Circuit.append, appendAll, List.forM_cons]
  cases checkStep c.wires ⟨o, wires⟩ with
  | error fault => rfl
  | ok => rfl

theorem does_append (o : Operation R) (wires : List ℕ) :
    Does (append o wires) fun c => (c.append o wires).map ((), ·) := by
  intro c
  have hwires := run_checkWires o c [] wires
  beta_reduce
  rw [append, append_eq_map, checkStep]
  split_ifs with harity
  · rfl
  cases hcheck : checkWires o c.wires [] wires with
  | error fault =>
    rw [hcheck] at hwires
    exact run_bind_of_error hwires
  | ok =>
    rw [hcheck] at hwires
    exact run_bind hwires

theorem does_gate (g : Except Fault (Gate R)) (wires : List ℕ) :
    Does (gate g wires) fun c => g >>= fun g => (c.gate g wires).map ((), ·) := by
  intro c
  cases g with
  | error fault => rfl
  | ok g => exact does_append (.primitive g) wires c

theorem does_extend (e : Circuit R) : Does (extend e) fun c => (c.extend e).map ((), ·) := by
  intro c
  beta_reduce
  rw [extend, run_bind run_get, Circuit.extend]
  cases c.layout.agrees e.layout with
  | true => rfl
  | false => rfl

end QuantumCircuits.Circuit.Edit
