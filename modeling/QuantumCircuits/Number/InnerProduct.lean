import QuantumCircuits.Number.Cx

/-! Inner products of complex vectors, conjugate in the first argument. Machine numbers give sums
that depend on the order of the terms, and there are two orders: from the left, and in eight lanes
of which each takes every eighth term. -/

namespace QuantumCircuits.Cx

variable {R : Type} [Scalar R]

def innerTerms (xs ys : List (Cx R)) : List (Cx R) := List.zipWith (fun a b => a.conj * b) xs ys

def innerProduct (xs ys : List (Cx R)) : Cx R := sum (innerTerms xs ys)

/-- Adds full rows of eight terms to the totals of eight lanes. The terms after the last full row
are left over. -/
def fillLanes (totals : List (Cx R)) : List (Cx R) → List (Cx R) × List (Cx R)
  | a :: b :: c :: d :: e :: f :: g :: h :: rest =>
    fillLanes (List.zipWith (· + ·) totals [a, b, c, d, e, f, g, h]) rest
  | rest => (totals, rest)

def laneSum (terms : List (Cx R)) : Cx R :=
  let (totals, rest) := fillLanes (List.replicate 8 0) terms
  sum (List.zipWith (· + ·) (totals.take 4) (totals.drop 4) ++ rest)

def laneProduct (xs ys : List (Cx R)) : Cx R := laneSum (innerTerms xs ys)

def lengthSq (xs : List (Cx R)) : R := (laneProduct xs xs).re

def length (xs : List (Cx R)) : R := Scalar.sqrt (lengthSq xs)

end QuantumCircuits.Cx
