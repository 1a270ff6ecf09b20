import Mathlib
import QuantumCircuits.Proofs.Circuit.Templates
import QuantumCircuits.Proofs.Simulation.ExactRuns

/-! Circuits whose runs never fail and always take the same number of draws. Gates take none, a reset takes one
whatever the state reads, and both leave a normalised state normalised. Circuits that run so run so one after the
other. -/

noncomputable section
namespace QuantumCircuits
open Matrix QuantumCircuits.Basis Operator

variable [EigenSolver ℝ] {c d e : Circuit ℝ} {b : Bindings ℝ} {n k l : ℕ}

namespace Circuit

/-- From every normalised state a noiseless run ends in one, after so many draws. -/
def Steady (c : Circuit ℝ) (n k : ℕ) : Prop :=
  ∀ (s : State ℝ) (source : DrawSource ℝ), s.IsNormalised n → source.InUnit →
    ∃ t, (c.run none s).run.run source = (.ok t, source.advance k) ∧ t.IsNormalised n

theorem Steady.extend (hc : c.Steady n k) (hd : d.Steady n l) (he : c.extend d = .ok e) : e.Steady n (k + l) := by
  intro s source hs hsource
  obtain ⟨t, ht, hnormal⟩ := hc s source hs hsource
  obtain ⟨u, hu, hfinal⟩ := hd t (source.advance k) hnormal (hsource.advance k)
  rw [source.advance_advance] at hu
  exact ⟨u, run_extend he ht hu, hfinal⟩

theorem Applies.exists_isNormalised {m : Operator n} (h : c.Applies m) (hm : m ∈ unitaryGroup (Fin (2 ^ n)) ℂ)
    {s : State ℝ} (hs : s.IsNormalised n) : ∃ t, c.statevector s = .ok t ∧ t.IsNormalised n := by
  refine ⟨_, h s hs.qubits, rfl, ?_⟩
  rw [State.vector_ofVector, mass_mulVec hm, hs.mass]

theorem Applies.steady {m : Operator n} (h : c.Applies m) (hm : m ∈ unitaryGroup (Fin (2 ^ n)) ℂ)
    (hpure : c.MadeOf Gate.IsPure) : c.Steady n 0 := by
  intro s source hs _
  obtain ⟨t, ht, hnormal⟩ := h.exists_isNormalised hm hs
  exact ⟨t, run_of_statevector hpure ht none source, hnormal⟩

theorem steady_resets {name : String} {layout : Layout} {ws : List ℕ} (hws : ∀ w ∈ ws, w < layout.wires) :
    Steady ⟨name, layout, ws.map fun w => .gate .reset [w]⟩ layout.wires ws.length := by
  intro s source hs hsource
  have hcount :
      (ws.map Instruction.reset).countP (Instruction.isRandom (none : Option (PauliChannel ℝ))) = ws.length := by
    rw [List.countP_map]
    exact List.countP_eq_length.2 fun w hw => rfl
  have hfits : ∀ i ∈ ws.map (Instruction.reset (R := ℝ)), i.Fits layout.wires := by
    intro i hi
    obtain ⟨w, hw, rfl⟩ := List.mem_map.1 hi
    exact hws w hw
  have hunitary : ∀ i ∈ ws.map (Instruction.reset (R := ℝ)), i.HoldsUnitary := by
    intro i hi
    obtain ⟨w, _, rfl⟩ := List.mem_map.1 hi
    trivial
  have hrun := @Instruction.run_eq_trajectory none (ws.map .reset) s source hsource
  rw [hcount] at hrun
  exact ⟨_, run_eq_ok_iff.2 ⟨_, hs.qubits, Instruction.ofCircuit_resets hws, hrun⟩,
    Instruction.isNormalised_trajectory hs hfits hunitary _⟩

def BindsSteady (c : Circuit ℝ) (b : Bindings ℝ) (n k : ℕ) : Prop := ∃ d, c.bind b = .ok d ∧ d.Steady n k

theorem Steady.bindsSteady (h : c.Steady n k) (htokens : (Operation.composite c).tokenNames = []) (b : Bindings ℝ) :
    c.BindsSteady b n k := by
  rw [Operation.tokenNames_composite, ← Operation.stepTokenNames_eq_flatMap] at htokens
  exact ⟨c, bind_of_tokenNames htokens b, h⟩

theorem BindsSteady.extend (hc : c.BindsSteady b n k) (hd : d.BindsSteady b n l) (he : c.extend d = .ok e) :
    e.BindsSteady b n (k + l) := by
  obtain ⟨c', hc', hsteadyc⟩ := hc
  obtain ⟨d', hd', hsteadyd⟩ := hd
  obtain ⟨hcovers, rfl⟩ := bind_eq_ok_iff_covers.1 hc'
  have halike := (transformsAlike hcovers).extend d d' hd'
  rw [he] at halike
  obtain ⟨e', he'⟩ := isOk_eq_true_iff.1 (halike.isOk_eq.symm.trans rfl)
  exact ⟨e', halike.bind_eq.trans he', hsteadyc.extend hsteadyd he'⟩

theorem BindsSteady.foldlM_extend {parts : List (Circuit ℝ)} {counts : List ℕ} (hc : c.BindsSteady b n k)
    (h : List.Forall₂ (fun part l => part.BindsSteady b n l) parts counts) (he : parts.foldlM Circuit.extend c = .ok e) :
    e.BindsSteady b n (k + counts.sum) := by
  induction h generalizing c k with
  | nil =>
    cases he
    rwa [List.sum_nil, Nat.add_zero]
  | @cons part l parts counts hpart _ ih =>
    rw [List.foldlM_cons] at he
    obtain ⟨longer, hextend, hrest⟩ := bind_eq_ok_iff.1 he
    rw [List.sum_cons, ← Nat.add_assoc]
    exact ih (hc.extend hpart hextend) hrest

end Circuit
end QuantumCircuits
end
