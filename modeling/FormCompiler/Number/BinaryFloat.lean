/-! Binary floating-point numbers as bit patterns. A pattern keeps the payload of a NaN, so numbers
that are only copied stay exactly as written. -/

namespace FormCompiler

/-- A binary interchange format: bits of the stored fraction and of the exponent. -/
structure FloatFormat where
  fraction : Nat
  exponent : Nat
  deriving DecidableEq

namespace FloatFormat

def binary32 : FloatFormat := ⟨23, 8⟩
def binary64 : FloatFormat := ⟨52, 11⟩

variable (f : FloatFormat)

/-- Every finite number is a whole multiple of `2 ^ quantum`. -/
def quantum : Int := 2 - (1 <<< (f.exponent - 1) : Nat) - f.fraction

/-- The pattern of positive infinity, above those of all finite numbers. -/
def infinity : Nat := (1 <<< f.exponent - 1) <<< f.fraction

def signBit : Nat := 1 <<< (f.exponent + f.fraction)

end FloatFormat

/-- A magnitude: not a number, infinite, or `mantissa * 2 ^ exponent`. -/
inductive Magnitude where
  | nan
  | infinite
  | finite (mantissa : Nat) (exponent : Int)
  deriving DecidableEq

namespace FloatFormat

variable (f : FloatFormat)

/-- Reads a pattern without its sign. -/
def magnitude (pattern : Nat) : Magnitude :=
  let fraction := pattern % 1 <<< f.fraction
  let exponent := pattern >>> f.fraction % 1 <<< f.exponent
  if exponent = 1 <<< f.exponent - 1 then (if fraction = 0 then .infinite else .nan)
  else if exponent = 0 then .finite fraction f.quantum
  else .finite (1 <<< f.fraction + fraction) (f.quantum + (exponent - 1))

def negative (pattern : Nat) : Bool := pattern / f.signBit % 2 = 1

end FloatFormat

/-- The quotient rounded to the nearest whole number, a half to the even one. -/
def roundHalfEven (num den : Nat) : Nat :=
  let q := num / den
  let r := num % den
  if 2 * r < den then q
  else if den < 2 * r then q + 1
  else q + q % 2

/-- The largest `e` with `2 ^ e ≤ num / den`, for positive `num` and `den`. -/
def floorLog2 (num den : Nat) : Int :=
  let e : Int := num.log2 - den.log2
  if den <<< e.toNat ≤ num <<< (-e).toNat then e else e - 1

namespace FloatFormat

variable (f : FloatFormat)

/-- The pattern nearest to `num / den`, ties to an even mantissa, too large to infinity. -/
def round (num den : Nat) : Nat :=
  if num = 0 then 0
  else
    let q := max (floorLog2 num den - f.fraction) f.quantum
    let mantissa := roundHalfEven (num <<< (-q).toNat) (den <<< q.toNat)
    min ((q - f.quantum).toNat <<< f.fraction + mantissa) f.infinity

def signed (neg : Bool) (pattern : Nat) : Nat := if neg then f.signBit + pattern else pattern

end FloatFormat

structure Binary32 where
  bits : UInt32
  deriving DecidableEq, Inhabited

structure Binary64 where
  bits : UInt64
  deriving DecidableEq, Inhabited

namespace Binary64

/-- The number nearest to the decimal `digits / 10 ^ places`. -/
def ofDecimal (neg : Bool) (digits places : Nat) : Binary64 :=
  ⟨UInt64.ofNat (FloatFormat.binary64.signed neg (FloatFormat.binary64.round digits (Nat.pow 10 places)))⟩

def toBinary32 (x : Binary64) : Binary32 :=
  let pattern :=
    match FloatFormat.binary64.magnitude x.bits.toNat with
    | .nan => FloatFormat.binary32.infinity + 1 <<< 22
    | .infinite => FloatFormat.binary32.infinity
    | .finite m e => FloatFormat.binary32.round (m <<< e.toNat) (1 <<< (-e).toNat)
  ⟨UInt32.ofNat (FloatFormat.binary32.signed (FloatFormat.binary64.negative x.bits.toNat) pattern)⟩

def toFloat (x : Binary64) : Float := Float.ofBits x.bits
def ofFloat (x : Float) : Binary64 := ⟨x.toBits⟩

def add (x y : Binary64) : Binary64 := ofFloat (x.toFloat + y.toFloat)
def sub (x y : Binary64) : Binary64 := ofFloat (x.toFloat - y.toFloat)
def mul (x y : Binary64) : Binary64 := ofFloat (x.toFloat * y.toFloat)
def div (x y : Binary64) : Binary64 := ofFloat (x.toFloat / y.toFloat)
def eq (x y : Binary64) : Bool := x.toFloat == y.toFloat
def lt (x y : Binary64) : Bool := decide (x.toFloat < y.toFloat)
def le (x y : Binary64) : Bool := decide (x.toFloat ≤ y.toFloat)

end Binary64

namespace Binary32

def toFloat (x : Binary32) : Float32 := Float32.ofBits x.bits
def ofFloat (x : Float32) : Binary32 := ⟨x.toBits⟩

def add (x y : Binary32) : Binary32 := ofFloat (x.toFloat + y.toFloat)
def sub (x y : Binary32) : Binary32 := ofFloat (x.toFloat - y.toFloat)
def mul (x y : Binary32) : Binary32 := ofFloat (x.toFloat * y.toFloat)
def div (x y : Binary32) : Binary32 := ofFloat (x.toFloat / y.toFloat)
def eq (x y : Binary32) : Bool := x.toFloat == y.toFloat
def lt (x y : Binary32) : Bool := decide (x.toFloat < y.toFloat)
def le (x y : Binary32) : Bool := decide (x.toFloat ≤ y.toFloat)

end Binary32

end FormCompiler
