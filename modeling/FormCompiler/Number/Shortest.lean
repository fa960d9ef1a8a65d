import FormCompiler.Number.BinaryFloat

/-! The decimal text of a floating-point number: the fewest significant digits that read back as the
number, of those the nearest to it, the larger of two equally near, written without an exponent. -/

namespace FormCompiler

/-- The decimal number `digits * 10 ^ exponent`. -/
structure Decimal where
  digits : Nat
  exponent : Int
  deriving DecidableEq

namespace Decimal

/-- Drops zeros at the end of the digits. -/
def trimmed : Nat → Decimal → Decimal
  | 0, d => d
  | n + 1, d => if d.digits % 10 = 0 then trimmed n ⟨d.digits / 10, d.exponent + 1⟩ else d

/-- Positional notation: zeros fill the gap between the digits and the point. -/
def text (d : Decimal) : String :=
  if d.digits = 0 then "0"
  else
    let ds := (Nat.toDigits 10 d.digits)
    let size : Int := ds.length
    let point := size + d.exponent
    if 0 ≤ d.exponent then String.ofList (ds ++ List.replicate d.exponent.toNat '0')
    else if 0 < point then
      String.ofList (ds.take point.toNat ++ '.' :: ds.drop point.toNat)
    else String.ofList ('0' :: '.' :: (List.replicate (-point).toNat '0' ++ ds))

end Decimal

/-- The reals that round to a number, as `low / den` to `high / den` around `value / den`;
`closed` when the ends round to it too. -/
structure RoundingInterval where
  low : Nat
  value : Nat
  high : Nat
  den : Nat
  closed : Bool

namespace RoundingInterval

/-- The interval of `mantissa * 2 ^ exponent`. The gap below a power of two is half the gap above
it, unless the numbers below are the smallest ones. -/
def ofFinite (f : FloatFormat) (mantissa : Nat) (exponent : Int) : RoundingInterval :=
  let below := if mantissa = 1 <<< f.fraction ∧ f.quantum < exponent then 1 else 2
  let scale := 1 <<< (exponent - 2).toNat
  { low := (4 * mantissa - below) * scale
    value := 4 * mantissa * scale
    high := (4 * mantissa + 2) * scale
    den := 1 <<< (2 - exponent).toNat
    closed := mantissa % 2 = 0 }

/-- Whether `num / unit` lies in the interval. -/
def contains (i : RoundingInterval) (num unit : Nat) : Bool :=
  if i.closed then i.low * unit ≤ num * i.den ∧ num * i.den ≤ i.high * unit
  else i.low * unit < num * i.den ∧ num * i.den < i.high * unit

/-- The largest `k` with `10 ^ k` at most the value, found near the estimate from its bits. -/
def leadingPower (i : RoundingInterval) : Int :=
  let estimate := (floorLog2 i.value i.den * 30103) / 100000 - 1
  let reaches (k : Int) : Bool := i.den * Nat.pow 10 k.toNat ≤ i.value * Nat.pow 10 (-k).toNat
  if reaches (estimate + 2) then estimate + 2
  else if reaches (estimate + 1) then estimate + 1
  else estimate

/-- The best point of the grid of multiples of `10 ^ exponent`, if one lies in the interval: the
nearer of the two around the value, the upper one when they are equally near. -/
def onGrid (i : RoundingInterval) (exponent : Int) : Option Decimal :=
  let unit := Nat.pow 10 (-exponent).toNat
  let step := Nat.pow 10 exponent.toNat
  let lower := i.value * unit / (i.den * step)
  let fits (n : Nat) : Bool := i.contains (n * step) unit
  let upperNearer : Bool := i.value * unit * 2 ≥ (2 * lower + 1) * step * i.den
  match fits lower, fits (lower + 1) with
  | true, true => some ⟨if upperNearer then lower + 1 else lower, exponent⟩
  | true, false => some ⟨lower, exponent⟩
  | false, true => some ⟨lower + 1, exponent⟩
  | false, false => none

/-- The first grid, from the coarsest on, with a point in the interval; `count` grids are tried. -/
def shortestFrom (i : RoundingInterval) : Nat → Int → Option Decimal
  | 0, _ => none
  | count + 1, exponent =>
    match i.onGrid exponent with
    | some d => some d
    | none => shortestFrom i count (exponent - 1)

/-- Twenty digits are enough for every format up to double precision. -/
def shortest (i : RoundingInterval) : Decimal :=
  let d := (i.shortestFrom 20 i.leadingPower).getD ⟨0, 0⟩
  d.trimmed 20

end RoundingInterval

namespace FloatFormat

def text (f : FloatFormat) (pattern : Nat) : String :=
  let sign := if f.negative pattern then "-" else ""
  match f.magnitude pattern with
  | .nan => "NaN"
  | .infinite => sign ++ "inf"
  | .finite 0 _ => sign ++ "0"
  | .finite m e => sign ++ (RoundingInterval.ofFinite f m e).shortest.text

end FloatFormat

namespace Binary32

def text (x : Binary32) : String := FloatFormat.binary32.text x.bits.toNat

end Binary32

namespace Binary64

def text (x : Binary64) : String := FloatFormat.binary64.text x.bits.toNat

end Binary64

end FormCompiler
