import Mathlib
import QuantumCircuits.Proofs.Simulation.Shots

/-! Errors along a run. Without resets, a run is the exact evolution by the instructions in which the errors that
were drawn stand in the places of the noise markers. -/

namespace QuantumCircuits

variable {R : Type} [Scalar R]

namespace PauliChannel

def drawnErrors (channel : PauliChannel R) : ℕ → DrawSource R → List (Option FixedGate)
  | 0, _ => []
  | count + 1, source =>
    channel.error? (source.unit source.used) :: channel.drawnErrors count (source.advance 1)

theorem run_sampleError (channel : PauliChannel R) (source : DrawSource R) :
    channel.sampleError.run.run source = (.ok (channel.error? (source.unit source.used)), source.advance 1) := rfl

theorem run_times_sampleError (channel : PauliChannel R) (count : ℕ) (source : DrawSource R) :
    (channel.sampleError.times count []).run.run source =
      (.ok (channel.drawnErrors count source).reverse, source.advance count) := by
  induction count generalizing source with
  | zero => rfl
  | succ count ih =>
    have hfirst := channel.run_sampleError source
    rw [Sampler.times_succ, run_bind hfirst, ← List.nil_append [channel.error? _], Sampler.times_append,
      run_bind (ih (source.advance 1)), drawnErrors, List.reverse_cons, source.advance_advance, Nat.add_comm 1]
    rfl

end PauliChannel

namespace Instruction

def ofError (wire : ℕ) (error : Option FixedGate) : List (Instruction R) :=
  (error.map fun g => .gate (.single g wire)).toList

/-- The instructions with errors in the places of the noise markers, one for each marker in order. Markers for
which no error is left are dropped. -/
def writeErrors : List (Instruction R) → List (Option FixedGate) → List (Instruction R)
  | [], _ => []
  | .gate p :: is, errors => .gate p :: writeErrors is errors
  | .noise w :: is, errors => ofError w errors.head?.join ++ writeErrors is errors.tail
  | .reset w :: is, errors => .reset w :: writeErrors is errors

variable {channel : Option (PauliChannel R)} {is : List (Instruction R)}

theorem foldlM_writeErrors_none {errors : List (Option FixedGate)} (h : ∀ e ∈ errors, e = none) (s : State R) :
    (writeErrors is errors).foldlM exactStep s = is.foldlM exactStep s := by
  induction is generalizing errors s with
  | nil => rfl
  | cons i is ih =>
    cases i with
    | gate p => exact ih h (p.apply s)
    | noise w =>
      have hhead : errors.head?.join = none := by
        cases errors with
        | nil => rfl
        | cons e errors => exact h e List.mem_cons_self
      -- A marker does nothing in an exact evolution, so it may be dropped.
      rw [writeErrors, hhead]
      exact ih (fun e he => h e (List.mem_of_mem_tail he)) s
    | reset w => rfl

theorem reset_mem_of_mem_writeErrors {errors : List (Option FixedGate)} {w : ℕ}
    (h : .reset w ∈ writeErrors is errors) : .reset w ∈ is := by
  induction is generalizing errors with
  | nil => exact h
  | cons i is ih =>
    cases i with
    | gate p => exact List.mem_cons_of_mem _ (ih ((List.mem_cons.1 h).resolve_left nofun))
    | noise v =>
      rcases List.mem_append.1 h with h | h
      · obtain ⟨g, _, same⟩ := Option.map_eq_some_iff.1 (Option.mem_toList.1 h)
        cases same
      · exact List.mem_cons_of_mem _ (ih h)
    | reset v =>
      rcases List.mem_cons.1 h with same | h
      · exact same ▸ List.mem_cons_self
      · exact List.mem_cons_of_mem _ (ih h)

def drawnErrors (channel : Option (PauliChannel R)) (is : List (Instruction R)) (source : DrawSource R) :
    List (Option FixedGate) :=
  channel.elim [] fun channel => channel.drawnErrors (is.countP isMarker) source

theorem run_marker (channel : PauliChannel R) (w : ℕ) (s : State R) (source : DrawSource R) :
    ∃ t, (randomStep (some channel) s (.noise w)).run.run source = (.ok t, source.advance 1) ∧
      (ofError w (channel.error? (source.unit source.used))).foldlM exactStep s = .ok t := by
  rw [randomStep, run_bind (channel.run_sampleError source)]
  cases channel.error? (source.unit source.used) with
  | none => exact ⟨s, rfl, rfl⟩
  | some g => exact ⟨(Placement.single g w).apply s, rfl, rfl⟩

theorem run_eq_writeErrors (h : ∀ w, .reset w ∉ is) (s : State R) (source : DrawSource R) :
    (run channel is s).run.run source = ((writeErrors is (drawnErrors channel is source)).foldlM exactStep s,
      source.advance (if channel.isSome then is.countP isMarker else 0)) := by
  induction is generalizing s source with
  | nil =>
    rw [List.countP_nil, ite_self]
    cases channel <;> rfl
  | cons i is ih =>
    have hrest : ∀ w, .reset w ∉ is := fun w hw => h w (List.mem_cons_of_mem _ hw)
    cases i with
    | gate p => exact ih hrest (p.apply s) source
    | noise w =>
      cases channel with
      | none => exact ih hrest s source
      -- The marker takes a draw, and the error that it selects stands at its place.
      | some channel =>
        obtain ⟨t, hstep, hexact⟩ := run_marker channel w s source
        have hcount : (Instruction.noise w :: is).countP isMarker = is.countP isMarker + 1 :=
          List.countP_cons_of_pos rfl
        have hdrawn : drawnErrors (some channel) (.noise w :: is) source =
            channel.error? (source.unit source.used) :: drawnErrors (some channel) is (source.advance 1) := by
          rw [drawnErrors, hcount]
          rfl
        have htail := ih hrest t (source.advance 1)
        rw [source.advance_advance, Nat.add_comm 1] at htail
        rw [run, List.foldlM_cons, run_bind hstep, hdrawn, writeErrors, List.foldlM_append, List.head?_cons,
          Option.join_some, hexact, hcount]
        exact htail
    | reset w => exact absurd List.mem_cons_self (h w)

variable [EigenSolver R]

theorem reset_not_mem_ofOperation {o : Operation R} (hunitary : o.isUnitary = true) {wires : List ℕ}
    {controls : List (ℕ × Bool)} {adjoint : Bool} (his : ofOperation wires controls adjoint o = .ok is) (w : ℕ) :
    .reset w ∉ is := by
  have hall : ∀ i ∈ is, ∀ w, i ≠ .reset w := by
    refine forall_ofOperation (b := false) (fun _ _ _ => nofun) (fun g hg wires controls adjoint is his i hi => ?_) his
    have hg : g.1 ≠ .reset := Gate.isUnitary_iff.1 ((Operation.isUnitary_iff false o).1 hunitary g hg)
    rcases ofGate_eq_ok his with ⟨_, _, rfl⟩ | ⟨hreset, _⟩ | ⟨_, _, _, _, rfl⟩
    · exact List.mem_singleton.1 hi ▸ nofun
    · exact absurd hreset hg
    · exact List.mem_singleton.1 hi ▸ nofun
  exact fun hw => hall _ hw w rfl

end Instruction

namespace Circuit

variable [EigenSolver R] {c : Circuit R} {is : List (Instruction R)}

/-- With the errors written in that successive draws select, one for each noise marker in the order of the
lowered instructions, a run without resets is an exact evolution. It takes these draws and no others, and where
no error is drawn it ends in the state of the exact evolution of the circuit. -/
theorem run_eq_written (hlower : Instruction.ofCircuit c = .ok is)
    (hunitary : (Operation.composite c).isUnitary = true) (channel : Option (PauliChannel R)) (s : State R)
    (source : DrawSource R) :
    (s.qubits ≠ c.wires → c.statevector s = .error (.state (.circuitSize s.qubits c.wires)) ∧
      (c.run channel s).run.run source = (.error (.state (.circuitSize s.qubits c.wires)), source)) ∧
    (s.qubits = c.wires → ∃ errors t,
      (∀ m ∈ channel, (m.sampleError.times (is.countP Instruction.isMarker) []).run.run source =
        (.ok errors.reverse, source.advance (is.countP Instruction.isMarker))) ∧
      (channel = none → errors = []) ∧
      (Instruction.writeErrors is errors).foldlM Instruction.exactStep s = .ok t ∧
      (c.run channel s).run.run source =
        (.ok t, source.advance (if channel.isSome then is.countP Instruction.isMarker else 0)) ∧
      ((∀ e ∈ errors, e = none) → c.statevector s = .ok t)) := by
  refine ⟨fun hs => ?_, fun hs => ?_⟩
  · have hprepare : c.prepare s = .error (.state (.circuitSize s.qubits c.wires)) := if_pos hs
    rw [statevector, run, hprepare]
    exact ⟨rfl, rfl⟩
  have hreset := Instruction.reset_not_mem_ofOperation hunitary hlower
  obtain ⟨t, ht⟩ := Instruction.exists_foldlM_exactStep
    (fun w hw => hreset w (Instruction.reset_mem_of_mem_writeErrors hw)) s
  have hrun : (Instruction.run channel is s).run.run source = _ := Instruction.run_eq_writeErrors hreset s source
  have hprepare := prepare_of_ofCircuit hlower hs
  refine ⟨Instruction.drawnErrors channel is source, t, ?_, ?_, ht, ?_, fun hnone => ?_⟩
  · rintro m ⟨⟩
    exact m.run_times_sampleError _ source
  · rintro rfl
    rfl
  · rw [run, run_bind (run_liftM hprepare), hrun, ht]
  · rw [statevector, hprepare, ← ht, Instruction.foldlM_writeErrors_none hnone]
    rfl

end Circuit

noncomputable section

def Session.echo : List (Call ℝ) :=
  [.newCircuit "body", .addRegister 0 "q" 1, .gate 0 (.fixed .s) [0], .gate 0 .noise [0], .close 0, .power 0 2,
    .inverse 0, .newCircuit "echo", .addRegister 1 "r" 2, .append 1 1 [1], .append 1 2 [0], .gate 1 .noise [1]]

def Circuit.echoBody : Circuit ℝ := ⟨"body", ⟨[⟨"q", 1, 0⟩], 1⟩, [.fixed .s [0], .gate .noise [0]]⟩

def Circuit.echo : Circuit ℝ :=
  ⟨"echo", ⟨[⟨"r", 2, 0⟩], 2⟩, [⟨.powered (.composite Circuit.echoBody) 2, [1]⟩,
    ⟨.inverted (.composite Circuit.echoBody), [0]⟩, .gate .noise [1]]⟩

theorem Circuit.echo_built : Circuit.echo.Built := by
  have hget : (Session.run Session.echo : Session ℝ).circuits[1]? = some .echo := by cbv
  exact ⟨_, List.mem_of_getElem? hget⟩

def Instruction.echo : List (Instruction ℝ) :=
  [.gate ⟨[], [1], FixedGate.s.matrix⟩, .noise 1, .gate ⟨[], [1], FixedGate.s.matrix⟩, .noise 1, .noise 0,
    .gate ⟨[], [0], FixedGate.sdg.matrix⟩, .noise 1]

attribute [local instance] EigenSolver.spectral in
theorem Circuit.run_eq_written_echo :
    Circuit.echo.Built ∧ Instruction.ofCircuit Circuit.echo = .ok Instruction.echo ∧
      (Operation.composite Circuit.echo).isUnitary = true ∧
      ∀ (s : State ℝ) (source : DrawSource ℝ), s.qubits = 2 → ∃ errors t,
        (PauliChannel.quarter.sampleError.times 4 []).run.run source = (.ok errors.reverse, source.advance 4) ∧
        (Instruction.writeErrors Instruction.echo errors).foldlM Instruction.exactStep s = .ok t ∧
        (Circuit.echo.run (some .quarter) s).run.run source = (.ok t, source.advance 4) ∧
        ((∀ e ∈ errors, e = none) → Circuit.echo.statevector s = .ok t) := by
  have hlower : Instruction.ofCircuit Circuit.echo = .ok Instruction.echo := rfl
  have hunitary : (Operation.composite Circuit.echo).isUnitary = true := rfl
  refine ⟨echo_built, hlower, hunitary, fun s source hs => ?_⟩
  obtain ⟨_, hwritten⟩ := run_eq_written hlower hunitary (some .quarter) s source
  obtain ⟨errors, t, hdrawn, _, hexact, hrun, hquiet⟩ := hwritten hs
  exact ⟨errors, t, hdrawn _ rfl, hexact, hrun, hquiet⟩

end
end QuantumCircuits
