import QuantumCircuits.Number.Decimal
import QuantumCircuits.Number.Scalar

/-! Binary floating point of 64 bits as a scalar with decimal text. -/

namespace QuantumCircuits

inductive Binary64.Class where
  | undefined
  | infinite
  | finite (magnitude : BinaryMagnitude)

namespace Binary64

def isNegative (x : Float) : Bool := x.toBits >>> 63 == 1

def classify (x : Float) : Class :=
  let bits := x.toBits
  let biased := ((bits >>> 52) &&& 0x7FF).toNat
  let fraction := (bits &&& 0xFFFFFFFFFFFFF).toNat
  if biased = 0x7FF then if fraction = 0 then .infinite else .undefined
  else if biased = 0 then .finite ⟨fraction, -1074, false⟩
  else .finite ⟨0x10000000000000 + fraction, (biased : Int) - 1075, fraction == 0 && biased > 1⟩

def signedText (digits : BinaryMagnitude → String) (x : Float) : String :=
  let sign := if isNegative x then "-" else ""
  match classify x with
  | .undefined => "NaN"
  | .infinite => sign ++ "inf"
  | .finite magnitude => sign ++ digits magnitude

def power (exponent : Int) : Float := .ofBits ((exponent + 1023).toNat.toUInt64 <<< 52)

/-- Length of the vector `(x, y)` with `0 ≤ y ≤ x`. The root `h` of the rounded sum of the squares
is corrected by its error `h ^ 2 - x ^ 2 - y ^ 2` over `2 h`. The terms of the error are arranged
so that it is nearly exact. -/
def refinedLength (x y : Float) : Float :=
  let h := (x * x + y * y).sqrt
  let error :=
    if h ≤ 2 * y then
      let d := h - y
      x * (2 * d - x) + (d - 2 * (x - y)) * d
    else
      let d := h - x
      2 * d * (x - 2 * y) + ((4 * d - y) * y + d * d)
  h - error / (2 * h)

/-- Numbers whose squares may leave the range are scaled by a power of two first. A coordinate that
is too small beside the other one to change the length is added to it. An infinite coordinate makes
the length infinite, whatever the other one is. -/
def hypot (a b : Float) : Float :=
  if a.isInf || b.isInf then 1 / 0
  else
    let x := if a.abs < b.abs then b.abs else a.abs
    let y := if a.abs < b.abs then a.abs else b.abs
    if y * power 54 ≤ x then x + y
    else if power 511 < x then refinedLength (x * power (-600)) (y * power (-600)) * power 600
    else if y < power (-459) then refinedLength (x * power 600) (y * power 600) * power (-600)
    else refinedLength x y

instance : Scalar Float where
  zero := 0
  one := 1
  natCast := Float.ofNat
  decidableLT := inferInstance
  decidableLE := inferInstance
  pi := 3.141592653589793
  sqrt := Float.sqrt
  sin := Float.sin
  cos := Float.cos
  log2 := Float.log2
  hypot := hypot
  isInfinite := Float.isInf
  ceilNat x := x.ceil.toUInt64.toNat

instance : DecimalText Float where
  shortest := signedText Decimal.shortestText
  fixed places := signedText (Decimal.fixedText places)

end Binary64
end QuantumCircuits
