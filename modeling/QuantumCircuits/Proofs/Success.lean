import Mathlib
import QuantumCircuits.Fault

/-! When calls that may fail succeed, one after the other and over a list, and what calls that change a state leave of it
where they fail. -/

namespace QuantumCircuits

variable {ε α β : Type}

theorem isOk_eq_true_iff {x : Except ε α} : x.isOk = true ↔ ∃ a, x = .ok a := by
  cases x <;> simp [Except.isOk, Except.toBool]

theorem bind_eq_ok_iff {x : Except ε α} {f : α → Except ε β} {b : β} :
    (x >>= f) = .ok b ↔ ∃ a, x = .ok a ∧ f a = .ok b := by
  cases x <;> simp [bind, Except.bind]

theorem map_eq_ok_iff {x : Except ε α} {f : α → β} {b : β} :
    x.map f = .ok b ↔ ∃ a, x = .ok a ∧ f a = b := by
  cases x <;> simp [Except.map]

@[simp] theorem pure_eq_ok_iff {a b : α} : (pure a : Except ε α) = .ok b ↔ a = b := by
  simp [pure, Except.pure]

theorem exists_bind_eq_ok {x : Except ε α} {f : α → Except ε β} {a : α} (hx : x = .ok a)
    (hf : ∃ b, f a = .ok b) : ∃ b, (x >>= f) = .ok b := by
  obtain ⟨b, hb⟩ := hf
  exact ⟨b, bind_eq_ok_iff.2 ⟨a, hx, hb⟩⟩

theorem mapM_eq_ok_iff {f : α → Except ε β} {xs : List α} {ys : List β} :
    xs.mapM f = .ok ys ↔ List.Forall₂ (fun x y => f x = .ok y) xs ys := by
  induction xs generalizing ys with
  | nil => cases ys <;> simp
  | cons x xs ih =>
    rw [List.mapM_cons, bind_eq_ok_iff]
    constructor
    · rintro ⟨y, hy, h⟩
      obtain ⟨rest, hrest, same⟩ := bind_eq_ok_iff.1 h
      obtain rfl := pure_eq_ok_iff.1 same
      exact .cons hy (ih.1 hrest)
    · intro h
      cases h with
      | cons hy hrest => exact ⟨_, hy, bind_eq_ok_iff.2 ⟨_, ih.2 hrest, rfl⟩⟩

theorem mapM_congr {f g : α → Except ε β} {xs : List α} (h : ∀ x ∈ xs, f x = g x) : xs.mapM f = xs.mapM g := by
  induction xs with
  | nil => rfl
  | cons x xs ih =>
    obtain ⟨hx, hxs⟩ := List.forall_mem_cons.1 h
    rw [List.mapM_cons, List.mapM_cons, hx, ih hxs]

theorem mapM_eq_some_iff {f : α → Option β} {xs : List α} {ys : List β} :
    xs.mapM f = some ys ↔ List.Forall₂ (fun x y => f x = some y) xs ys := by
  induction xs generalizing ys with
  | nil => cases ys <;> simp
  | cons x xs ih =>
    rw [List.mapM_cons, Option.bind_eq_bind, Option.bind_eq_some_iff]
    constructor
    · rintro ⟨y, hy, h⟩
      obtain ⟨rest, hrest, same⟩ := Option.bind_eq_some_iff.1 h
      obtain rfl := Option.some.inj same
      exact .cons hy (ih.1 hrest)
    · intro h
      cases h with
      | cons hy hrest => exact ⟨_, hy, Option.bind_eq_some_iff.2 ⟨_, ih.2 hrest, rfl⟩⟩

theorem forM_eq_ok_iff {f : α → Except ε Unit} {xs : List α} :
    forM xs f = .ok () ↔ ∀ x ∈ xs, f x = .ok () := by
  induction xs with
  | nil => simp
  | cons x xs ih =>
    rw [List.forM_cons, bind_eq_ok_iff, List.forall_mem_cons, ih]
    exact ⟨fun ⟨_, h, hrest⟩ => ⟨h, hrest⟩, fun ⟨h, hrest⟩ => ⟨_, h, hrest⟩⟩

theorem map_eq_map_of_forall₂ {γ : Type*} {P : α → β → Prop} {f : α → γ} {g : β → γ} {xs : List α}
    {ys : List β} (h : List.Forall₂ P xs ys) (hfg : ∀ x ∈ xs, ∀ y, P x y → g y = f x) :
    ys.map g = xs.map f := by
  induction h with
  | nil => rfl
  | cons hxy _ ih =>
    obtain ⟨hhead, htail⟩ := List.forall_mem_cons.1 hfg
    rw [List.map_cons, List.map_cons, hhead _ hxy, ih htail]

theorem exists_forall₂ {P : α → β → Prop} {xs : List α} (h : ∀ x ∈ xs, ∃ y, P x y) :
    ∃ ys, List.Forall₂ P xs ys := by
  induction xs with
  | nil => exact ⟨[], .nil⟩
  | cons x xs ih =>
    obtain ⟨⟨y, hy⟩, htail⟩ := List.forall_mem_cons.1 h
    obtain ⟨ys, hys⟩ := ih htail
    exact ⟨y :: ys, .cons hy hys⟩

theorem exists_of_forall₂_right {P : α → β → Prop} {xs : List α} {ys : List β}
    (h : List.Forall₂ P xs ys) : ∀ y ∈ ys, ∃ x ∈ xs, P x y := by
  induction h with
  | nil => simp
  | @cons x y _ _ hxy _ ih =>
    intro z hz
    rcases List.mem_cons.1 hz with rfl | hz
    · exact ⟨x, List.mem_cons_self, hxy⟩
    · obtain ⟨w, hw, hwz⟩ := ih z hz
      exact ⟨w, List.mem_cons_of_mem _ hw, hwz⟩

theorem exists_of_mapM {f : α → Except ε β} {xs : List α} {ys : List β} (h : xs.mapM f = .ok ys) :
    ∀ x ∈ xs, ∃ y ∈ ys, f x = .ok y := exists_of_forall₂_right (mapM_eq_ok_iff.1 h).flip

def Succeeds (x : Except ε α) (P : α → Prop) : Prop := ∃ a, x = .ok a ∧ P a

namespace Succeeds

variable {x : Except ε α} {f : α → Except ε β} {P : α → Prop} {Q : β → Prop}

theorem pure {a : α} (h : P a) : Succeeds (pure a : Except ε α) P := ⟨a, rfl, h⟩

theorem mono {P' : α → Prop} (h : Succeeds x P) (hP : ∀ a, P a → P' a) : Succeeds x P' := by
  obtain ⟨a, ha, hp⟩ := h
  exact ⟨a, ha, hP a hp⟩

theorem bind (h : Succeeds x P) (hf : ∀ a, P a → Succeeds (f a) Q) : Succeeds (x >>= f) Q := by
  obtain ⟨a, ha, hp⟩ := h
  obtain ⟨b, hb, hq⟩ := hf a hp
  exact ⟨b, bind_eq_ok_iff.2 ⟨a, ha, hb⟩, hq⟩

theorem mapM {P : α → β → Prop} {xs : List α} (h : ∀ x ∈ xs, Succeeds (f x) (P x)) :
    Succeeds (xs.mapM f) (List.Forall₂ P xs) := by
  induction xs with
  | nil => exact .pure .nil
  | cons x xs ih =>
    obtain ⟨hx, hxs⟩ := List.forall_mem_cons.1 h
    rw [List.mapM_cons]
    exact hx.bind fun y hy => (ih hxs).bind fun ys hys => .pure (.cons hy hys)

end Succeeds

section Stateful

variable {σ : Type} {s t : σ} {x : ExceptT Fault (StateM σ) α} {f : α → ExceptT Fault (StateM σ) β}

theorem run_bind_eq_ok_iff {b : β} : (x >>= f).run.run s = (.ok b, t) ↔
    ∃ a middle, x.run.run s = (.ok a, middle) ∧ (f a).run.run middle = (.ok b, t) := by
  rw [ExceptT.run_bind, StateT.run_bind]
  obtain ⟨result, middle⟩ := x.run.run s
  constructor
  · intro h
    cases result with
    | ok a => exact ⟨a, middle, rfl, h⟩
    | error fault => cases h
  · rintro ⟨a, middle, ⟨⟩, h⟩
    exact h

theorem run_bind {a : α} (h : x.run.run s = (.ok a, t)) : (x >>= f).run.run s = (f a).run.run t := by
  rw [ExceptT.run_bind, StateT.run_bind, h]
  rfl

theorem run_bind_of_error {fault : Fault} (h : x.run.run s = (.error fault, t)) :
    (x >>= f).run.run s = (.error fault, t) := by
  rw [ExceptT.run_bind, StateT.run_bind, h]
  rfl

theorem run_get : (get : ExceptT Fault (StateM σ) σ).run.run s = (.ok s, s) := rfl

theorem run_liftM {r : Except Fault α} {a : α} (h : r = .ok a) :
    (liftM r : ExceptT Fault (StateM σ) α).run.run s = (.ok a, s) := by
  subst h
  rfl

theorem run_liftM_of_error {r : Except Fault α} {fault : Fault} (h : r = .error fault) :
    (liftM r : ExceptT Fault (StateM σ) α).run.run s = (.error fault, s) := by
  subst h
  rfl

theorem run_pure_eq_ok_iff {a b : α} :
    (pure a : ExceptT Fault (StateM σ) α).run.run s = (.ok b, t) ↔ a = b ∧ s = t := by
  constructor
  · rintro ⟨⟩
    exact ⟨rfl, rfl⟩
  · rintro ⟨rfl, rfl⟩
    rfl

theorem run_liftM_eq_ok_iff {r : Except Fault α} {a : α} :
    (liftM r : ExceptT Fault (StateM σ) α).run.run s = (.ok a, t) ↔ r = .ok a ∧ s = t := by
  constructor
  · intro h
    cases r with
    | ok b =>
      cases h
      exact ⟨rfl, rfl⟩
    | error fault => cases h
  · rintro ⟨rfl, rfl⟩
    rfl

end Stateful
end QuantumCircuits
