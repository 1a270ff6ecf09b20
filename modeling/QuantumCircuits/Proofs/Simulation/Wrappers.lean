import Mathlib
import QuantumCircuits.Proofs.Simulation.LoweredInverses

/-! The algebra of the wrappers. Controls inside controls are one list of controls, an exponent of an
exponent is their product, and controls, exponents and inversions change places. -/

namespace QuantumCircuits
open Operation

section Squares

variable {R : Type} [Scalar R]

def Instruction.IsSquare : Instruction R → Prop
  | .gate p => ∃ d, p.matrix.Shaped d d
  | _ => True

variable [EigenSolver R]

theorem DenseMatrix.exists_shaped_evolution (h : DenseMatrix (Cx R)) (time : R) :
    ∃ d, (h.evolution time).Shaped d d := by
  rw [evolution_eq]
  split
  · exact ⟨_, shaped_phases rfl time⟩
  · exact ⟨_, rfl, rfl⟩

theorem Gate.WellFormed.exists_shaped {g : Gate R} {m : DenseMatrix (Cx R)} (h : g.WellFormed)
    (hm : g.targetMatrix = .ok m) : ∃ d, m.Shaped d d := by
  cases g with
  | fixed kind =>
    cases hm
    exact ⟨_, kind.shaped_matrix⟩
  | angle kind θ =>
    obtain ⟨x, _, same⟩ := bind_eq_ok_iff.1 hm
    obtain rfl := pure_eq_ok_iff.1 same
    exact ⟨_, kind.shaped_matrix x⟩
  | dense label matrix =>
    cases hm
    exact ⟨_, Gate.shaped_of_checkDimension h⟩
  | evolution hamiltonian time =>
    obtain ⟨x, _, same⟩ := bind_eq_ok_iff.1 hm
    obtain rfl := pure_eq_ok_iff.1 same
    exact hamiltonian.exists_shaped_evolution x
  | noise =>
    cases hm
    exact ⟨_, DenseMatrix.shaped_identity 2⟩
  | reset => cases hm

namespace Instruction

theorem isSquare_ofOperation {o : Operation R} (h : o.WellFormed) {wires : List ℕ}
    {controls : List (ℕ × Bool)} {adjoint : Bool} {is : List (Instruction R)}
    (his : ofOperation wires controls adjoint o = .ok is) : ∀ i ∈ is, i.IsSquare := by
  refine forall_ofOperation (b := false) ?_ (fun g hg wires controls adjoint is his => ?_) his
  · rintro p e ⟨d, hshape⟩
    exact ⟨d, hshape.pow e⟩
  · rcases ofGate_eq_ok his with ⟨_, _, rfl⟩ | ⟨_, rfl⟩ | ⟨a, m, ha, hm, rfl⟩
    · exact List.forall_mem_singleton.2 trivial
    · exact List.forall_mem_singleton.2 trivial
    · exact List.forall_mem_singleton.2 (((h.of_mem_gates false g hg).adjusted ha).1.exists_shaped hm)

end Instruction
end Squares

theorem flatten_replicate_flatten {α : Type} (xs : List α) (a b : ℕ) :
    (List.replicate b (List.replicate a xs).flatten).flatten = (List.replicate (a * b) xs).flatten := by
  induction b with
  | zero => rfl
  | succ b ih =>
    rw [List.replicate_succ', List.flatten_append, ih, List.flatten_singleton, Nat.mul_succ,
      List.replicate_add, List.flatten_append]

namespace Instruction

variable {body : List (Instruction ℝ)}

theorem repeated_repeated (h : ∀ i ∈ body, i.IsSquare) {a : ℕ} (ha : 0 < a) (b : ℕ) :
    repeated (repeated body a) b = repeated body (a * b) := by
  by_cases hgate : ∃ p, body = [.gate p]
  · obtain ⟨p, rfl⟩ := hgate
    obtain ⟨d, hshape⟩ := h (.gate p) List.mem_cons_self
    change [Instruction.gate { p with matrix := (p.matrix.pow a).pow b }] = _
    rw [hshape.pow_pow]
    rfl
  · have hbody : ∀ p, body ≠ [.gate p] := fun p hp => hgate ⟨p, hp⟩
    -- Copies of a body are no single gate unless the body is one.
    have hcopies : ∀ p, (List.replicate a body).flatten ≠ [.gate p] := by
      intro p hp
      obtain ⟨k, rfl⟩ := Nat.exists_eq_succ_of_ne_zero ha.ne'
      rw [List.replicate_succ, List.flatten_cons, List.append_eq_singleton_iff] at hp
      rcases hp with ⟨rfl, hrest⟩ | ⟨hp, _⟩
      · rw [List.flatten_replicate_nil] at hrest
        cases hrest
      · exact hbody p hp
    rw [repeated_eq_flatten hbody, repeated_eq_flatten hcopies, flatten_replicate_flatten,
      repeated_eq_flatten hbody]

theorem repeated_one (h : ∀ i ∈ body, i.IsSquare) : repeated body 1 = body := by
  by_cases hgate : ∃ p, body = [.gate p]
  · obtain ⟨p, rfl⟩ := hgate
    obtain ⟨d, hshape⟩ := h (.gate p) List.mem_cons_self
    change [Instruction.gate { p with matrix := p.matrix.pow 1 }] = _
    rw [hshape.pow_eq_self]
  · rw [repeated_eq_flatten fun p hp => hgate ⟨p, hp⟩, List.replicate_one, List.flatten_singleton]

end Instruction

def ControlState.append (s u : ControlState) : ControlState := ⟨s.flags ++ u.flags⟩

theorem zip_take_append {α β : Type} (wires : List α) (xs ys : List β) :
    (wires.take (xs ++ ys).length).zip (xs ++ ys) =
      (wires.take xs.length).zip xs ++ ((wires.drop xs.length).take ys.length).zip ys := by
  induction xs generalizing wires with
  | nil => rfl
  | cons x xs ih =>
    cases wires with
    | nil => simp
    | cons w wires =>
      simp only [List.cons_append, List.length_cons, List.take_succ_cons, List.zip_cons_cons,
        List.drop_succ_cons, ih]

namespace Operation

section Calls

variable {R : Type} {o : Operation R} {s : ControlState}

theorem control_eq_ok (hs : 0 < s.length) (h : o.isUnitary = true) :
    o.control s.length s = .ok (.controlled o s) := by
  simp [control, hs.ne', h]

theorem control_eq_error (hs : 0 < s.length) (h : o.isUnitary = false) :
    o.control s.length s = .error (.notUnitary o.name) := by
  simp [control, hs.ne', h]

theorem power_eq_ok {e : ℕ} (he : 0 < e) : o.power e = .ok (.powered o e) := if_neg he.ne'

end Calls

section Agreement

variable {R : Type} [Scalar R] [EigenSolver R]

structure SameLowering (x y : Except Fault (Operation R)) : Prop where
  isOk : x.isOk = y.isOk
  lowersAlike : ∀ p q, x = .ok p → y = .ok q → p.LowersAlike q

variable {x y : Except Fault (Operation R)} {o p q : Operation R} {s u : ControlState} {e : ℕ}

theorem SameLowering.of_ok (hx : x = .ok p) (hy : y = .ok q) (h : p.LowersAlike q) : SameLowering x y := by
  subst hx hy
  refine ⟨rfl, fun p' q' hp hq => ?_⟩
  cases hp
  cases hq
  exact h

theorem SameLowering.of_error {fault fault' : Fault} (hx : x = .error fault) (hy : y = .error fault') :
    SameLowering x y := by
  subst hx hy
  exact ⟨rfl, nofun⟩

theorem sameLowering_control_control (hs : 0 < s.length) (hu : 0 < u.length) :
    SameLowering (o.control s.length s >>= fun p => p.control u.length u)
      (o.control (u.append s).length (u.append s)) := by
  have hboth : 0 < (u.append s).length := by
    change 0 < (u.flags ++ s.flags).length
    rw [List.length_append]
    exact Nat.add_pos_left hu _
  cases hunitary : o.isUnitary with
  | false => exact .of_error (by rw [control_eq_error hs hunitary]; rfl) (control_eq_error hboth hunitary)
  | true =>
    refine .of_ok (p := .controlled (.controlled o s) u) ?_ (control_eq_ok hboth hunitary) ?_
    · rw [control_eq_ok hs hunitary]
      exact control_eq_ok hu hunitary
    · intro wires controls adjoint
      have hcontrols := zip_take_append wires u.flags s.flags
      change Instruction.ofOperation ((wires.drop u.length).drop s.length)
        (controls ++ (wires.take u.length).zip u.flags ++
          ((wires.drop u.length).take s.length).zip s.flags) adjoint o =
        Instruction.ofOperation (wires.drop (u.flags ++ s.flags).length)
          (controls ++ (wires.take (u.flags ++ s.flags).length).zip (u.flags ++ s.flags)) adjoint o
      rw [hcontrols, List.drop_drop, List.append_assoc, List.length_append]
      rfl

theorem sameLowering_power_control (he : 0 < e) (hs : 0 < s.length) :
    SameLowering (o.power e >>= fun p => p.control s.length s)
      (o.control s.length s >>= fun p => p.power e) := by
  rw [power_eq_ok he]
  cases hunitary : o.isUnitary with
  | false =>
    rw [control_eq_error hs hunitary]
    exact .of_error (control_eq_error hs hunitary) rfl
  | true =>
    rw [control_eq_ok hs hunitary]
    exact .of_ok (control_eq_ok hs hunitary) (power_eq_ok he) fun _ _ _ => rfl

variable [Scalar.LawfulSigns R]

theorem WellFormed.sameLowering_inverse_control (h : o.WellFormed) (hs : 0 < s.length) :
    SameLowering (o.inverse >>= fun p => p.control s.length s)
      (o.control s.length s >>= fun p => p.inverse) := by
  cases hunitary : o.isUnitary with
  | false =>
    rw [h.inverse_eq_error hunitary, control_eq_error hs hunitary]
    exact .of_error rfl rfl
  | true =>
    obtain ⟨i, hi⟩ := exists_inverse hunitary
    obtain ⟨j, hj⟩ := exists_inverse (o := .controlled o s) hunitary
    rw [hi, control_eq_ok hs hunitary]
    refine .of_ok (control_eq_ok hs (h.inverse hi).2.2) hj fun wires controls adjoint => ?_
    rw [Instruction.ofOperation_inverse hj]
    exact Instruction.ofOperation_inverse hi _ _ _

theorem WellFormed.sameLowering_inverse_power (h : o.WellFormed) (he : 0 < e) :
    SameLowering (o.inverse >>= fun p => p.power e) (o.power e >>= fun p => p.inverse) := by
  rw [power_eq_ok he]
  cases hunitary : o.isUnitary with
  | false =>
    rw [h.inverse_eq_error hunitary]
    exact .of_error rfl ((WellFormed.powered h he).inverse_eq_error hunitary)
  | true =>
    obtain ⟨i, hi⟩ := exists_inverse hunitary
    obtain ⟨j, hj⟩ := exists_inverse (o := .powered o e) hunitary
    rw [hi]
    refine .of_ok (power_eq_ok he) hj fun wires controls adjoint => ?_
    rw [Instruction.ofOperation_inverse hj]
    change (do return Instruction.repeated (← Instruction.ofOperation wires controls adjoint i) e) = _
    rw [Instruction.ofOperation_inverse hi]
    rfl

end Agreement

section Exponents

variable [EigenSolver ℝ] {o : Operation ℝ} {a b : ℕ}

theorem WellFormed.sameLowering_power_power (h : o.WellFormed) (ha : 0 < a) (hb : 0 < b) :
    SameLowering (o.power a >>= fun p => p.power b) (o.power (a * b)) := by
  rw [power_eq_ok ha]
  refine .of_ok (power_eq_ok hb) (power_eq_ok (Nat.mul_pos ha hb)) fun wires controls adjoint => ?_
  change ((Instruction.ofOperation wires controls adjoint o >>= fun body =>
    pure (Instruction.repeated body a)) >>= fun body => pure (Instruction.repeated body b)) =
      (Instruction.ofOperation wires controls adjoint o >>= fun body =>
        pure (Instruction.repeated body (a * b)))
  cases hbody : Instruction.ofOperation wires controls adjoint o with
  | error fault => rfl
  | ok body => exact congrArg Except.ok (Instruction.repeated_repeated (Instruction.isSquare_ofOperation h hbody) ha b)

theorem WellFormed.sameLowering_power_one (h : o.WellFormed) : SameLowering (o.power 1) (.ok o) := by
  refine .of_ok (power_eq_ok one_pos) rfl fun wires controls adjoint => ?_
  change (do return Instruction.repeated (← Instruction.ofOperation wires controls adjoint o) 1) = _
  cases hbody : Instruction.ofOperation wires controls adjoint o with
  | error fault => rfl
  | ok body => exact congrArg Except.ok (Instruction.repeated_one (Instruction.isSquare_ofOperation h hbody))

/-- Controls, exponents and inversions of one operation combine and change places: the calls in both
orders succeed together, and what they return is lowered alike everywhere. -/
theorem wrappers_agree (h : o.Built) {s u : ControlState} (hs : 0 < s.length) (hu : 0 < u.length)
    (ha : 0 < a) (hb : 0 < b) :
    SameLowering (o.control s.length s >>= fun p => p.control u.length u)
      (o.control (u.append s).length (u.append s)) ∧
    SameLowering (o.power a >>= fun p => p.control s.length s)
      (o.control s.length s >>= fun p => p.power a) ∧
    SameLowering (o.inverse >>= fun p => p.control s.length s)
      (o.control s.length s >>= fun p => p.inverse) ∧
    SameLowering (o.inverse >>= fun p => p.power a) (o.power a >>= fun p => p.inverse) ∧
    SameLowering (o.power a >>= fun p => p.power b) (o.power (a * b)) ∧
    SameLowering (o.power 1) (.ok o) :=
  have hwell := h.wellFormed
  ⟨sameLowering_control_control hs hu, sameLowering_power_control ha hs,
    hwell.sameLowering_inverse_control hs, hwell.sameLowering_inverse_power ha,
    hwell.sameLowering_power_power ha hb, hwell.sameLowering_power_one⟩

end Exponents

attribute [local instance] EigenSolver.spectral in
theorem wrappers_agree_nested :
    (nested : Operation ℝ).Built ∧ 0 < (⟨[true]⟩ : ControlState).length ∧
    0 < (⟨[false, true]⟩ : ControlState).length ∧ 0 < 3 ∧ 0 < 5 ∧
    SameLowering ((nested : Operation ℝ).control 1 ⟨[true]⟩ >>= fun p => p.control 2 ⟨[false, true]⟩)
      ((nested : Operation ℝ).control 3 ⟨[false, true, true]⟩) ∧
    SameLowering ((nested : Operation ℝ).power 3 >>= fun p => p.control 1 ⟨[true]⟩)
      ((nested : Operation ℝ).control 1 ⟨[true]⟩ >>= fun p => p.power 3) ∧
    SameLowering ((nested : Operation ℝ).inverse >>= fun p => p.control 1 ⟨[true]⟩)
      ((nested : Operation ℝ).control 1 ⟨[true]⟩ >>= fun p => p.inverse) ∧
    SameLowering ((nested : Operation ℝ).inverse >>= fun p => p.power 3)
      ((nested : Operation ℝ).power 3 >>= fun p => p.inverse) ∧
    SameLowering ((nested : Operation ℝ).power 3 >>= fun p => p.power 5)
      ((nested : Operation ℝ).power 15) ∧
    SameLowering ((nested : Operation ℝ).power 1) (.ok nested) :=
  ⟨nested_built, by decide, by decide, by decide, by decide,
    wrappers_agree nested_built (s := ⟨[true]⟩) (u := ⟨[false, true]⟩) (a := 3) (b := 5)
      (by decide) (by decide) (by decide) (by decide)⟩

end Operation
end QuantumCircuits
