import QuantumCircuits.Fault
import QuantumCircuits.Number.Scalar

/-! Minimisation by a simplex of points, of which the worst is reflected, expanded or contracted
towards the others, or all of which shrink towards the best. -/

namespace QuantumCircuits.Simplex

variable {R : Type} [Scalar R]

structure Vertex (R : Type) where
  point : List R
  cost : R

/-- The vertices in ascending order of cost, the best point found so far if any, and the number of
steps taken. -/
structure Search (R : Type) where
  vertices : List (Vertex R)
  best : Option (Vertex R)
  iterations : Nat

def add (x y : List R) : List R := List.zipWith (· + ·) x y

def sub (x y : List R) : List R := List.zipWith (· - ·) x y

def scale (a : R) (x : List R) : List R := x.map (a * ·)

def along (a : R) (start finish : List R) : List R := add start (scale a (sub finish start))

/-- Ascending order of costs. Vertices keep their order where costs are equal or unordered. -/
def sort (vertices : List (Vertex R)) : List (Vertex R) :=
  vertices.mergeSort fun a b => !decide (b.cost < a.cost)

def equallyInfinite (a b : R) : Bool :=
  Scalar.isInfinite a && Scalar.isInfinite b && decide (a < 0) == decide (b < 0)

/-- Takes the first vertex for the best point if its cost is below the best cost so far or as
infinite. The first best point only needs a cost that is ordered. -/
def updateBest (best : Option (Vertex R)) (vertices : List (Vertex R)) : Option (Vertex R) :=
  match vertices, best with
  | [], _ => best
  | v :: _, none => if v.cost ≤ v.cost then some v else none
  | v :: _, some b => if v.cost < b.cost || equallyInfinite v.cost b.cost then some v else best

def centroid (points : List (List R)) : List R :=
  match points with
  | [] => []
  | p :: rest => scale (1 / ((points.length : Nat) : R)) (rest.foldl add p)

def deviation (vertices : List (Vertex R)) : R :=
  let costs := vertices.map Vertex.cost
  let n : R := ((costs.length : Nat) : R)
  let mean := Scalar.sum costs / n
  Scalar.sqrt (Scalar.sum (costs.map fun c => (c - mean) * (c - mean)) / (n - 1))

/-- The costs are equal to machine precision, or the best cost is infinitely small. -/
def finished (s : Search R) : Bool :=
  deviation s.vertices < Scalar.epsilon ||
    s.best.any fun v => Scalar.isInfinite v.cost && decide (v.cost < 0)

inductive Move (R : Type) where
  | replace (v : Vertex R)
  | shrink

variable (cost : List R → Except Fault R)

def evaluate (point : List R) : Except Fault (Vertex R) := return ⟨point, ← cost point⟩

/-- Reflects the worst point in the centre of the others. A reflection that is better than all is
expanded, one that is among the worst is contracted, and a contraction that does not help makes the
simplex shrink. -/
def chooseMove (best secondWorst worst : Vertex R) (centre : List R) : Except Fault (Move R) := do
  let reflected ← evaluate cost (add centre (sub centre worst.point))
  if reflected.cost < secondWorst.cost && best.cost ≤ reflected.cost then
    return .replace reflected
  else if reflected.cost < best.cost then
    let expanded ← evaluate cost (along Scalar.two centre reflected.point)
    return .replace (if expanded.cost < reflected.cost then expanded else reflected)
  else if secondWorst.cost ≤ reflected.cost then
    if reflected.cost < worst.cost then
      let outside ← evaluate cost (along (Scalar.half 1) centre reflected.point)
      return if outside.cost ≤ reflected.cost then .replace outside else .shrink
    else
      let inside ← evaluate cost (along (Scalar.half 1) centre worst.point)
      return if inside.cost < worst.cost then .replace inside else .shrink
  else throw (.optimization .unorderedCosts)

def shrink (vertices : List (Vertex R)) : Except Fault (List (Vertex R)) :=
  match vertices with
  | [] => return []
  | first :: rest => do
    let moved ← rest.mapM fun v => evaluate cost (along (Scalar.half 1) first.point v.point)
    return first :: moved

def step (s : Search R) : Except Fault (Search R) := do
  match s.vertices, s.vertices.dropLast.getLast?, s.vertices.getLast? with
  | first :: _, some secondWorst, some worst =>
    let kept := s.vertices.dropLast
    let centre := centroid (kept.map Vertex.point)
    let moved ←
      match ← chooseMove cost first secondWorst worst centre with
      | .replace v => pure (kept ++ [v])
      | .shrink => shrink cost s.vertices
    let vertices := sort moved
    return ⟨vertices, updateBest s.best vertices, s.iterations + 1⟩
  | _, _, _ => throw (.optimization .unorderedCosts)

def steps : Nat → Search R → Except Fault (Search R)
  | 0, s => return s
  | n + 1, s => if finished s then return s else do steps n (← step cost s)

def minimize (points : List (List R)) (maxSteps : Nat) : Except Fault (Vertex R × Nat) := do
  let vertices := sort (← points.mapM (evaluate cost))
  let final ← steps cost maxSteps ⟨vertices, updateBest none vertices, 0⟩
  match final.best with
  | some v => return (v, final.iterations)
  | none => throw (.optimization .noBestPoint)

end QuantumCircuits.Simplex
