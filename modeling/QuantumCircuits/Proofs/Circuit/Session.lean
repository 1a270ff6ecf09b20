import Mathlib
import QuantumCircuits.Proofs.Circuit.InPlace
import QuantumCircuits.Proofs.Circuit.Preservation

/-! Sessions: circuits and operations that a sequence of checked calls has built. Some calls change a
circuit in place, the others add a circuit or an operation. Whatever the calls, all circuits and operations of a session
are well formed, and a call that fails leaves all of them as they were. -/

namespace QuantumCircuits

structure Session (R : Type) where
  circuits : List (Circuit R)
  operations : List (Operation R)

/-- The checked calls. Circuits and operations are named by their places in the session; a gate is
given by its kind and goes through the constructor of that kind. -/
inductive Call (R : Type) where
  | newCircuit (name : String)
  | addRegister (circuit : ℕ) (name : String) (size : ℕ)
  | append (circuit operation : ℕ) (wires : List ℕ)
  | gate (circuit : ℕ) (kind : Gate R) (wires : List ℕ)
  | extend (circuit other : ℕ)
  | compose (left right : ℕ)
  | inverseCircuit (circuit : ℕ)
  | bindCircuit (circuit : ℕ) (bindings : Bindings R)
  | close (circuit : ℕ)
  | primitive (kind : Gate R)
  | control (operation n : ℕ) (state : ControlState)
  | power (operation exponent : ℕ)
  | powerOfTwo (operation k : ℕ)
  | inverse (operation : ℕ)
  | adjoint (operation : ℕ)
  | bind (operation : ℕ) (bindings : Bindings R)

variable {R : Type}

namespace Session

def empty : Session R := ⟨[], []⟩

def keep (s : Session R) (c : Circuit R) : Session R := { s with circuits := s.circuits ++ [c] }

def hold (s : Session R) (o : Operation R) : Session R := { s with operations := s.operations ++ [o] }

def withCircuit (s : Session R) (i : ℕ) (f : Circuit R → Except Fault Unit × Session R) :
    Except Fault Unit × Session R := (s.circuits[i]?).elim (.ok (), s) f

def withOperation (s : Session R) (i : ℕ) (f : Operation R → Except Fault Unit × Session R) :
    Except Fault Unit × Session R := (s.operations[i]?).elim (.ok (), s) f

def edit {α : Type} (s : Session R) (i : ℕ) (x : Circuit.Edit R α) : Except Fault Unit × Session R :=
  s.withCircuit i fun c => ((x.run.run c).1.map fun _ => (), { s with circuits := s.circuits.set i (x.run.run c).2 })

def keepResult (s : Session R) : Except Fault (Circuit R) → Except Fault Unit × Session R
  | .ok c => (.ok (), s.keep c)
  | .error fault => (.error fault, s)

def holdResult (s : Session R) : Except Fault (Operation R) → Except Fault Unit × Session R
  | .ok o => (.ok (), s.hold o)
  | .error fault => (.error fault, s)

variable {s : Session R} {fault : Fault}

theorem withCircuit_cases {i : ℕ} {f : Circuit R → Except Fault Unit × Session R} {P : Except Fault Unit × Session R → Prop}
    (hnone : P (.ok (), s)) (hsome : ∀ c, s.circuits[i]? = some c → P (f c)) : P (s.withCircuit i f) := by
  unfold withCircuit
  cases hc : s.circuits[i]? with
  | none => exact hnone
  | some c => exact hsome c hc

theorem withOperation_cases {i : ℕ} {f : Operation R → Except Fault Unit × Session R}
    {P : Except Fault Unit × Session R → Prop} (hnone : P (.ok (), s))
    (hsome : ∀ o, s.operations[i]? = some o → P (f o)) : P (s.withOperation i f) := by
  unfold withOperation
  cases ho : s.operations[i]? with
  | none => exact hnone
  | some o => exact hsome o ho

theorem withCircuit_of_error {i : ℕ} {f : Circuit R → Except Fault Unit × Session R}
    (hf : ∀ c, s.circuits[i]? = some c → (f c).1 = .error fault → (f c).2 = s) :
    (s.withCircuit i f).1 = .error fault → (s.withCircuit i f).2 = s :=
  withCircuit_cases (P := fun r => r.1 = .error fault → r.2 = s) (fun _ => rfl) hf

theorem withOperation_of_error {i : ℕ} {f : Operation R → Except Fault Unit × Session R}
    (hf : ∀ o, (f o).1 = .error fault → (f o).2 = s) :
    (s.withOperation i f).1 = .error fault → (s.withOperation i f).2 = s :=
  withOperation_cases (P := fun r => r.1 = .error fault → r.2 = s) (fun _ => rfl) fun o _ => hf o

theorem edit_of_error {i : ℕ} {α : Type} {x : Circuit.Edit R α} {f : Circuit R → Except Fault (α × Circuit R)}
    (hx : x.Does f) (h : (s.edit i x).1 = .error fault) : (s.edit i x).2 = s := by
  refine withCircuit_of_error (fun c hc hfault => ?_) h
  have hsame : (x.run.run c).2 = c := by
    cases hresult : (x.run.run c).1 with
    | ok a =>
      rw [hresult] at hfault
      cases hfault
    | error other => exact hx.of_error hresult
  obtain ⟨hi, rfl⟩ := List.getElem?_eq_some_iff.1 hc
  dsimp only
  rw [hsame, List.set_getElem_self]

theorem keepResult_of_error {x : Except Fault (Circuit R)} (h : (s.keepResult x).1 = .error fault) :
    (s.keepResult x).2 = s := by
  cases x with
  | ok c => cases h
  | error other => rfl

theorem holdResult_of_error {x : Except Fault (Operation R)} (h : (s.holdResult x).1 = .error fault) :
    (s.holdResult x).2 = s := by
  cases x with
  | ok o => cases h
  | error other => rfl

end Session

variable [Scalar R]

def Gate.checked : Gate R → Except Fault (Gate R)
  | .dense label m => Gate.ofUnitary label m
  | .evolution h time => Gate.ofHamiltonian h time
  | g => .ok g

namespace Session

/-- Whether the call succeeds, and the session it leaves. -/
def perform (s : Session R) : Call R → Except Fault Unit × Session R
  | .newCircuit name => (.ok (), s.keep (.empty name))
  | .addRegister i name size => s.edit i (.addRegister name size)
  | .append i j wires => s.withOperation j fun o => s.edit i (.append o wires)
  | .gate i kind wires => s.edit i (.gate kind.checked wires)
  | .extend i j => s.withCircuit j fun d => s.edit i (.extend d)
  | .compose i j => s.withCircuit i fun c => s.withCircuit j fun d => (.ok (), s.keep (c.compose d))
  | .inverseCircuit i => s.withCircuit i fun c => s.keepResult c.inverse
  | .bindCircuit i b => s.withCircuit i fun c => s.keepResult (c.bind b)
  | .close i => s.withCircuit i fun c => (.ok (), s.hold (.composite c))
  | .primitive kind => s.holdResult (kind.checked.map .primitive)
  | .control i n state => s.withOperation i fun o => s.holdResult (o.control n state)
  | .power i e => s.withOperation i fun o => s.holdResult (o.power e)
  | .powerOfTwo i k => s.withOperation i fun o => s.holdResult (o.powerOfTwo k)
  | .inverse i => s.withOperation i fun o => s.holdResult o.inverse
  | .adjoint i => s.withOperation i fun o => s.holdResult o.adjoint
  | .bind i b => s.withOperation i fun o => s.holdResult (o.bind b)

def after (s : Session R) (call : Call R) : Session R := (s.perform call).2

def run (calls : List (Call R)) : Session R := calls.foldl after empty

structure WellFormed (s : Session R) : Prop where
  circuits : ∀ c ∈ s.circuits, c.WellFormed
  operations : ∀ o ∈ s.operations, o.WellFormed

variable {s : Session R}

theorem WellFormed.keep (h : s.WellFormed) {c : Circuit R} (hc : c.WellFormed) :
    (s.keep c).WellFormed := by
  refine ⟨fun d hd => ?_, h.operations⟩
  rcases List.mem_append.1 hd with hd | hd
  · exact h.circuits d hd
  · exact List.mem_singleton.1 hd ▸ hc

theorem WellFormed.hold (h : s.WellFormed) {o : Operation R} (ho : o.WellFormed) :
    (s.hold o).WellFormed := by
  refine ⟨h.circuits, fun p hp => ?_⟩
  rcases List.mem_append.1 hp with hp | hp
  · exact h.operations p hp
  · exact List.mem_singleton.1 hp ▸ ho

theorem WellFormed.withCircuit (h : s.WellFormed) {i : ℕ} {f : Circuit R → Except Fault Unit × Session R}
    (hf : ∀ c, c.WellFormed → (f c).2.WellFormed) : (s.withCircuit i f).2.WellFormed :=
  withCircuit_cases (P := fun r => r.2.WellFormed) h fun c hc => hf c (h.circuits c (List.mem_of_getElem? hc))

theorem WellFormed.withOperation (h : s.WellFormed) {i : ℕ} {f : Operation R → Except Fault Unit × Session R}
    (hf : ∀ o, o.WellFormed → (f o).2.WellFormed) : (s.withOperation i f).2.WellFormed :=
  withOperation_cases (P := fun r => r.2.WellFormed) h fun o ho => hf o (h.operations o (List.mem_of_getElem? ho))

theorem WellFormed.edit (h : s.WellFormed) {i : ℕ} {α : Type} {x : Circuit.Edit R α}
    {f : Circuit R → Except Fault (α × Circuit R)} (hx : x.Does f)
    (hf : ∀ c a d, c.WellFormed → f c = .ok (a, d) → d.WellFormed) : (s.edit i x).2.WellFormed := by
  refine h.withCircuit fun c hc => ⟨fun d hd => ?_, h.operations⟩
  rcases List.mem_or_eq_of_mem_set hd with hd | rfl
  · exact h.circuits d hd
  cases hresult : (x.run.run c).1 with
  | ok a => exact hf c a _ hc (hx.of_ok a hresult)
  | error fault => exact (hx.of_error hresult).symm ▸ hc

theorem WellFormed.keepResult (h : s.WellFormed) {x : Except Fault (Circuit R)}
    (hx : ∀ c, x = .ok c → c.WellFormed) : (s.keepResult x).2.WellFormed := by
  cases x with
  | ok c => exact h.keep (hx c rfl)
  | error fault => exact h

theorem WellFormed.holdResult (h : s.WellFormed) {x : Except Fault (Operation R)}
    (hx : ∀ o, x = .ok o → o.WellFormed) : (s.holdResult x).2.WellFormed := by
  cases x with
  | ok o => exact h.hold (hx o rfl)
  | error fault => exact h

end Session

theorem Gate.wellFormed_checked {g a : Gate R} (h : g.checked = .ok a) : a.WellFormed := by
  cases g with
  | dense label m => exact wellFormed_ofUnitary h
  | evolution m time => exact wellFormed_ofHamiltonian h
  | _ =>
    cases h
    trivial

namespace Session

open Circuit

variable {s : Session R} {fault : Fault}

theorem WellFormed.after (h : s.WellFormed) (call : Call R) : (s.after call).WellFormed := by
  cases call with
  | newCircuit name => exact h.keep (.empty name)
  | addRegister i name size => exact h.edit (Edit.does_addRegister name size) fun c r d hc hd => hc.addRegister hd
  | append i j wires =>
    refine h.withOperation fun o ho => h.edit (Edit.does_append o wires) fun c _ d hc hd => ?_
    obtain ⟨e, he, ⟨⟩⟩ := map_eq_ok_iff.1 hd
    exact hc.append ho he
  | gate i kind wires =>
    refine h.edit (Edit.does_gate kind.checked wires) fun c _ d hc hd => ?_
    obtain ⟨g, hg, hgate⟩ := bind_eq_ok_iff.1 hd
    obtain ⟨e, he, ⟨⟩⟩ := map_eq_ok_iff.1 hgate
    exact hc.append (.primitive (Gate.wellFormed_checked hg)) he
  | extend i j =>
    refine h.withCircuit fun d hd => h.edit (Edit.does_extend d) fun c _ e hc he => ?_
    obtain ⟨e, he, ⟨⟩⟩ := map_eq_ok_iff.1 he
    exact hc.extend hd he
  | compose i j => exact h.withCircuit fun c hc => h.withCircuit fun d hd => h.keep (hc.compose hd)
  | inverseCircuit i => exact h.withCircuit fun c hc => h.keepResult fun d hd => hc.inverse hd
  | bindCircuit i b => exact h.withCircuit fun c hc => h.keepResult fun d hd => hc.bind hd
  | close i => exact h.withCircuit fun c hc => h.hold hc
  | primitive kind =>
    refine h.holdResult fun o ho => ?_
    obtain ⟨g, hg, rfl⟩ := map_eq_ok_iff.1 ho
    exact .primitive (Gate.wellFormed_checked hg)
  | control i n state => exact h.withOperation fun o ho => h.holdResult fun a ha => ho.control ha
  | power i e => exact h.withOperation fun o ho => h.holdResult fun a ha => ho.power ha
  | powerOfTwo i k => exact h.withOperation fun o ho => h.holdResult fun a ha => ho.powerOfTwo ha
  | inverse i => exact h.withOperation fun o ho => h.holdResult fun a ha => (ho.inverse ha).1
  | adjoint i => exact h.withOperation fun o ho => h.holdResult fun a ha => (ho.adjoint ha).1
  | bind i b => exact h.withOperation fun o ho => h.holdResult fun a ha => (ho.bind ha).1

theorem wellFormed_run (calls : List (Call R)) : (run calls).WellFormed := by
  have hfold : ∀ s : Session R, s.WellFormed → (calls.foldl Session.after s).WellFormed := by
    induction calls with
    | nil => exact fun s h => h
    | cons call calls ih => exact fun s h => ih _ (h.after call)
  exact hfold empty ⟨by simp [empty], by simp [empty]⟩

theorem after_of_error {call : Call R} (h : (s.perform call).1 = .error fault) : s.after call = s := by
  cases call with
  | newCircuit name => cases h
  | addRegister i name size => exact edit_of_error (Edit.does_addRegister name size) h
  | append i j wires => exact withOperation_of_error (fun o => edit_of_error (Edit.does_append o wires)) h
  | gate i kind wires => exact edit_of_error (Edit.does_gate kind.checked wires) h
  | extend i j => exact withCircuit_of_error (fun d _ => edit_of_error (Edit.does_extend d)) h
  | compose i j =>
    refine withCircuit_of_error (fun c _ => withCircuit_of_error fun d _ hfault => ?_) h
    cases hfault
  | inverseCircuit i => exact withCircuit_of_error (fun _ _ => keepResult_of_error) h
  | bindCircuit i b => exact withCircuit_of_error (fun _ _ => keepResult_of_error) h
  | close i =>
    refine withCircuit_of_error (fun c _ hfault => ?_) h
    cases hfault
  | primitive kind => exact holdResult_of_error h
  | control i n state => exact withOperation_of_error (fun _ => holdResult_of_error) h
  | power i e => exact withOperation_of_error (fun _ => holdResult_of_error) h
  | powerOfTwo i k => exact withOperation_of_error (fun _ => holdResult_of_error) h
  | inverse i => exact withOperation_of_error (fun _ => holdResult_of_error) h
  | adjoint i => exact withOperation_of_error (fun _ => holdResult_of_error) h
  | bind i b => exact withOperation_of_error (fun _ => holdResult_of_error) h

end Session

/-- Some sequence of checked calls builds the circuit. -/
def Circuit.Built (c : Circuit R) : Prop := ∃ calls, c ∈ (Session.run calls).circuits

def Operation.Built (o : Operation R) : Prop := ∃ calls, o ∈ (Session.run calls).operations

theorem Circuit.Built.wellFormed {c : Circuit R} : c.Built → c.WellFormed
  | ⟨calls, h⟩ => (Session.wellFormed_run calls).circuits c h

theorem Operation.Built.wellFormed {o : Operation R} : o.Built → o.WellFormed
  | ⟨calls, h⟩ => (Session.wellFormed_run calls).operations o h

/-- Calls that nest a composite in a power, the power under a control, and all in an inversion. The
second attempt to append repeats a wire and fails. -/
def Session.nested : List (Call R) :=
  [.newCircuit "inner", .addRegister 0 "q" 1, .gate 0 (.fixed .h) [0], .gate 0 (.fixed .t) [0],
    .close 0, .power 0 3, .control 1 1 ⟨[false]⟩, .inverse 2,
    .newCircuit "outer", .addRegister 1 "r" 2, .append 1 3 [1, 0], .append 1 3 [1, 1],
    .gate 1 .noise [0]]

def Operation.nested : Operation R :=
  .inverted (.controlled (.powered (.composite
    ⟨"inner", ⟨[⟨"q", 1, 0⟩], 1⟩, [.fixed .h [0], .fixed .t [0]]⟩) 3) ⟨[false]⟩)

def Circuit.nested : Circuit R :=
  ⟨"outer", ⟨[⟨"r", 2, 0⟩], 2⟩, [⟨.nested, [1, 0]⟩, .gate .noise [0]]⟩

theorem Operation.nested_built : (Operation.nested : Operation R).Built := by
  have hget : (Session.run Session.nested : Session R).operations[3]? = some .nested := by cbv
  exact ⟨_, List.mem_of_getElem? hget⟩

theorem Circuit.nested_built : (Circuit.nested : Circuit R).Built := by
  have hget : (Session.run Session.nested : Session R).circuits[1]? = some .nested := by cbv
  exact ⟨_, List.mem_of_getElem? hget⟩

end QuantumCircuits
