import QuantumCircuits.Fault
import QuantumCircuits.Number.Scalar

/-! Gate parameters, which are numbers or multiples of a named token, and the values that tokens are
bound to. -/

namespace QuantumCircuits

inductive Param (R : Type) where
  | value (value : R)
  /-- The value bound to `name` times the coefficient. -/
  | token (name : String) (coefficient : R)
deriving BEq

/-- Values of tokens, at most one for each name. -/
structure Bindings (R : Type) where
  entries : List (String × R)
  distinct : (entries.map Prod.fst).Nodup

/-- The tokens `name[0]`, `name[1]`, and so on up to a length. -/
structure ParamFamily where
  name : String
  length : Nat

namespace Bindings

variable {R : Type}

def empty : Bindings R := ⟨[], List.nodup_nil⟩

instance : Inhabited (Bindings R) := ⟨empty⟩

def insert (b : Bindings R) (name : String) (value : R) : Bindings R where
  entries := (name, value) :: b.entries.filter fun entry => entry.1 != name
  distinct := by
    rw [List.map_cons, List.nodup_cons]
    constructor
    · simp
    · exact b.distinct.sublist ((List.filter_sublist).map _)

def get? (b : Bindings R) (name : String) : Option R := b.entries.lookup name

def size (b : Bindings R) : Nat := b.entries.length

def ofList (entries : List (String × R)) : Bindings R :=
  entries.foldl (fun b (name, value) => b.insert name value) empty

theorem lookup_filter_ne {name other : String} (h : other ≠ name) (entries : List (String × R)) :
    (entries.filter fun entry => entry.1 != name).lookup other = entries.lookup other := by
  induction entries with
  | nil => rfl
  | cons entry rest ih =>
    obtain ⟨key, value⟩ := entry
    by_cases hk : key = name
    · have miss : (other == key) = false := by simpa [hk] using h
      simp [hk, ih, List.lookup_cons, hk ▸ miss]
    · simp [hk, List.lookup_cons, ih]

theorem get?_insert (b : Bindings R) (name other : String) (value : R) :
    (b.insert name value).get? other = if other = name then some value else b.get? other := by
  by_cases h : other = name
  · simp [get?, insert, h]
  · have miss : (other == name) = false := by simpa using h
    simp [get?, insert, h, List.lookup_cons, miss, lookup_filter_ne h]

end Bindings

namespace Param

variable {R : Type} [Scalar R]

def ofToken (name : String) : Param R := .token name 1

def isSymbolic : Param R → Bool
  | .value _ => false
  | .token .. => true

def value? : Param R → Option R
  | .value v => some v
  | .token .. => none

def resolve : Param R → Except Fault R
  | .value v => .ok v
  | .token name _ => .error (.unbound name)

def scale (factor : R) : Param R → Param R
  | .value v => .value (v * factor)
  | .token name coefficient => .token name (coefficient * factor)

def neg (p : Param R) : Param R := p.scale (-1)

def bind (b : Bindings R) : Param R → Except Fault (Param R)
  | .value v => .ok (.value v)
  | .token name coefficient =>
    match b.get? name with
    | some v => .ok (.value (coefficient * v))
    | none => .error (.unbound name)

def tokenNames : Param R → List String
  | .value _ => []
  | .token name _ => [name]

theorem bind_of_not_symbolic {θ : Param R} {b : Bindings R} (h : θ.isSymbolic = false) :
    θ.bind b = .ok θ := by
  cases θ with
  | value v => rfl
  | token name coefficient => cases h

def text [DecimalText R] : Param R → String
  | .value v => DecimalText.shortest v
  | .token name coefficient =>
    if coefficient == 1 then name else DecimalText.shortest coefficient ++ "*" ++ name

end Param

namespace ParamFamily

variable {R : Type} [Scalar R]

def tokenName (f : ParamFamily) (i : Nat) : String := s!"{f.name}[{i}]"

def get (f : ParamFamily) (i : Nat) : Param R := .ofToken (f.tokenName i)

end ParamFamily

namespace Bindings

variable {R : Type}

def insertFamily (b : Bindings R) (f : ParamFamily) (values : List R) :
    Except Fault (Bindings R) :=
  if values.length = f.length then
    .ok (values.zipIdx.foldl (fun b (v, i) => b.insert (f.tokenName i) v) b)
  else .error (.state (.valueCount values.length f.name f.length))

end Bindings

def sortedNames (names : List String) : List String :=
  names.eraseDups.mergeSort fun a b => decide (a ≤ b)

end QuantumCircuits
