import QuantumCircuits.Number.Scalar

/-! Decimal digits of the magnitudes `mantissa * 2 ^ exponent`, by exact arithmetic on naturals.
Two texts are made: the shortest decimal that still rounds to the magnitude, and the magnitude
rounded to a set number of places. -/

namespace QuantumCircuits

structure BinaryMagnitude where
  mantissa : Nat
  exponent : Int
  narrowBelow : Bool

namespace BinaryMagnitude

def numerator (x : BinaryMagnitude) : Nat := x.mantissa * 2 ^ x.exponent.toNat

def denominator (x : BinaryMagnitude) : Nat := 2 ^ (-x.exponent).toNat

end BinaryMagnitude

namespace Decimal

structure Scaled where
  digits : Nat
  exponent : Int

def roundHalfEven (num den : Nat) : Nat :=
  let q := num / den
  match compare (2 * (num % den)) den with
  | .lt => q
  | .gt => q + 1
  | .eq => if q % 2 = 0 then q else q + 1

/-- The best multiple of `10 ^ g` among the two that enclose the magnitude: one that rounds to it,
the closer one if both do, and the larger one if they are equally close. -/
def onGrid (x : BinaryMagnitude) (g : Int) : Option Nat :=
  let shift := 2 ^ x.exponent.toNat * 10 ^ (-g).toNat
  let unit := 4 * x.denominator * 10 ^ g.toNat
  let value := 4 * x.mantissa * shift
  let low := (if x.narrowBelow then 4 * x.mantissa - 1 else 4 * x.mantissa - 2) * shift
  let high := (4 * x.mantissa + 2) * shift
  let rounds (a : Nat) : Bool :=
    if x.mantissa % 2 = 0 then low ≤ a * unit && a * unit ≤ high
    else low < a * unit && a * unit < high
  let below := value / unit
  let above := below + 1
  match rounds below, rounds above with
  | false, false => none
  | true, false => some below
  | false, true => some above
  | true, true => if 2 * value < (below + above) * unit then some below else some above

def leadingExponent (x : BinaryMagnitude) : Int :=
  let guess := ((Nat.log2 x.mantissa : Int) + x.exponent) * 30103 / 100000
  let below (k : Int) : Bool :=
    x.numerator * 10 ^ (-k).toNat < x.denominator * 10 ^ k.toNat
  if below guess then guess else if below (guess + 1) then guess + 1 else guess + 2

def shortest (x : BinaryMagnitude) : Scaled :=
  let k := leadingExponent x
  let found := (List.range 17).findSome? fun n =>
    let g := k - (n + 1 : Nat)
    (onGrid x g).map (⟨·, g⟩ : Nat → Scaled)
  found.getD ⟨x.mantissa * 2 ^ x.exponent.toNat * 5 ^ (-x.exponent).toNat, min x.exponent 0⟩

def zeros (n : Nat) : String := String.ofList (List.replicate n '0')

def Scaled.positional (d : Scaled) : String :=
  let ds := (Nat.toDigits 10 d.digits)
  let kept := (ds.reverse.dropWhile (· == '0')).reverse
  let exponent := d.exponent + ((ds.length - kept.length : Nat) : Int)
  let digits := String.ofList kept
  match exponent with
  | .ofNat n => digits ++ zeros n
  | .negSucc n =>
    let places := n + 1
    if places < kept.length then
      String.ofList (kept.take (kept.length - places)) ++ "." ++
        String.ofList (kept.drop (kept.length - places))
    else "0." ++ zeros (places - kept.length) ++ digits

def shortestText (x : BinaryMagnitude) : String :=
  if x.mantissa = 0 then "0" else (shortest x).positional

def fixedText (places : Nat) (x : BinaryMagnitude) : String :=
  let scaled := roundHalfEven (x.numerator * 10 ^ places) x.denominator
  let whole := toString (scaled / 10 ^ places)
  let rest := Nat.toDigits 10 (scaled % 10 ^ places)
  if places = 0 then whole
  else whole ++ "." ++ zeros (places - rest.length) ++ String.ofList rest

end Decimal
end QuantumCircuits
