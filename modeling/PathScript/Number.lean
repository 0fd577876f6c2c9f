
/-! # Checked integers

Arithmetic on 64-bit integers never wraps: an operation gives the mathematical
result when that lies in range and `none` when it does not. Only the shifts
work on the bits themselves. -/

namespace PathScript.Number

/-- An integer, if it lies in the 64-bit range. -/
def fit? (n : Int) : Option Int64 :=
  if Int64.minValue.toInt ≤ n ∧ n ≤ Int64.maxValue.toInt then some (Int64.ofInt n) else none

def add? (a b : Int64) : Option Int64 := fit? (a.toInt + b.toInt)

def sub? (a b : Int64) : Option Int64 := fit? (a.toInt - b.toInt)

def mul? (a b : Int64) : Option Int64 := fit? (a.toInt * b.toInt)

def neg? (a : Int64) : Option Int64 := fit? (-a.toInt)

def abs? (a : Int64) : Option Int64 := fit? a.toInt.natAbs

/-- Division toward zero, by a number other than zero. -/
def div? (a b : Int64) : Option Int64 := fit? (a.toInt.tdiv b.toInt)

/-- The remainder of division toward zero. It is refused together with the quotient, so the
least integer has no remainder by minus one. -/
def rem? (a b : Int64) : Option Int64 := (div? a b).map fun _ => Int64.ofInt (a.toInt.tmod b.toInt)

/-- `acc * base ^ n` by repeated squaring. The base is squared only if the square is needed. -/
def powFrom? (acc base : Int64) (n : Nat) : Option Int64 :=
  if n = 0 then some acc
  else if n = 1 then mul? acc base
  else do
    let acc ← if n % 2 = 1 then mul? acc base else some acc
    powFrom? acc (← mul? base base) (n / 2)

/-- A power. The products on the way are checked like the last one. -/
def pow? (a : Int64) (n : Nat) : Option Int64 := powFrom? 1 a n

/-- Shifts take their amount modulo the width. -/
def shiftAmount (b : Int64) : Int64 := b &&& 63

def shiftLeft (a b : Int64) : Int64 := a <<< shiftAmount b

def shiftRight (a b : Int64) : Int64 := a >>> shiftAmount b

def shiftRightZero (a b : Int64) : Int64 :=
  (a.toUInt64 >>> (shiftAmount b).toUInt64).toInt64

theorem fit?_eq_some_iff {n : Int} {a : Int64} : fit? n = some a ↔ a.toInt = n := by
  unfold fit?
  constructor
  · intro h
    split at h
    · next hr =>
      injection h with h
      subst h
      rw [Int64.toInt_minValue, Int64.toInt_maxValue] at hr
      exact Int64.toInt_ofInt_of_le hr.1 (Int.lt_of_le_sub_one hr.2)
    · exact absurd h (by simp)
  · intro h
    subst h
    rw [if_pos ⟨Int64.minValue_le_toInt a, Int64.toInt_le a⟩, Int64.ofInt_toInt]

end PathScript.Number

/-! # Binary floating-point numbers

A finite double is `± m · 2^q` with `m < 2^53` and `q ≥ -1074`. This file reads
a double apart into these numbers and finds the double nearest to a fraction,
both with exact natural numbers. -/

namespace PathScript.Binary64

/-- Least exponent of a double written as an integer times a power of two. -/
def minExponent : Int := -1074

/-- Greatest such exponent. -/
def maxExponent : Int := 971

/-- The bit that a double leaves out: `2^52`. Those below it are written down. -/
def hiddenBit : Nat := 1 <<< 52

def signBit : Nat := 1 <<< 63

/-- The magnitude of a finite double as an integer and a power of two. -/
def decode (x : Float) : Nat × Int :=
  let bits := x.toBits.toNat
  let exponent : Nat := bits / hiddenBit % 2048
  let fraction : Nat := bits % hiddenBit
  if exponent = 0 then (fraction, minExponent) else (hiddenBit + fraction, (exponent : Int) - 1075)

/-- Whether the sign bit is set; also of zeros and of numbers that are not numbers. -/
def isNegative (x : Float) : Bool := decide (signBit ≤ x.toBits.toNat)

/-- The double with these parts, `m < 2^53`; an integer below `2^52` needs the least exponent. -/
def assemble (negative : Bool) (m : Nat) (q : Int) : Float :=
  let sign := if negative then signBit else 0
  let magnitude := if m < hiddenBit then m else (q + 1075).toNat * hiddenBit + (m - hiddenBit)
  Float.ofBits (UInt64.ofNat (sign + magnitude))

def infinity (negative : Bool) : Float :=
  Float.ofBits (UInt64.ofNat ((if negative then signBit else 0) + 2047 * hiddenBit))

/-- A quotient rounded to the nearest integer, a half to the even one. -/
def roundDiv (num den : Nat) : Nat :=
  let q := num / den
  let r := num % den
  if 2 * r > den || (2 * r == den && q % 2 == 1) then q + 1 else q

/-- `num / den · 2^-q` as a fraction of natural numbers. -/
def scaled (num den : Nat) (q : Int) : Nat × Nat :=
  if 0 ≤ q then (num, den <<< q.toNat) else (num <<< (-q).toNat, den)

/-- The double nearest to `± num / den`, a half going to the even integer. -/
def nearest (negative : Bool) (num den : Nat) : Float :=
  if num = 0 then assemble negative 0 minExponent
  else
    -- `num / den` lies between `2^guess` and `2^(guess + 2)`
    let guess : Int := (num.log2 : Int) - den.log2 - 1
    let atLeast (e : Int) : Bool :=
      let (a, b) := scaled num den e
      decide (b ≤ a)
    let top := if atLeast (guess + 1) then guess + 1 else guess
    let q := max (top - 52) minExponent
    let (a, b) := scaled num den q
    let m := roundDiv a b
    let (m, q) := if m = 2 * hiddenBit then (hiddenBit, q + 1) else (m, q)
    if q > maxExponent then infinity negative else assemble negative m q

/-- The remainder of truncating division, with the sign of the dividend. -/
def remainder (x y : Float) : Float :=
  if x.isNaN || y.isNaN || x.isInf || y == 0.0 then 0.0 / 0.0
  else if y.isInf then x
  else
    let (mx, qx) := decode x
    let (my, qy) := decode y
    let q := min qx qy
    let r := (mx <<< (qx - q).toNat) % (my <<< (qy - q).toNat)
    if 0 ≤ q then nearest (isNegative x) (r <<< q.toNat) 1
    else nearest (isNegative x) r (1 <<< (-q).toNat)

end PathScript.Binary64

/-! # Numbers from text

Integers are an optional sign and digits, and must fit into 64 bits. Doubles
are an optional sign and either a name (`inf`, `infinity`, `nan`, in any case)
or digits with an optional point and an optional exponent, where at least one
digit stands beside the point; they are read as the nearest double. -/

namespace PathScript.Number

/-- The value of a digit in some base up to sixteen. -/
def digitValue? (base : Nat) (c : Char) : Option Nat :=
  let v :=
    if '0' ≤ c && c ≤ '9' then some (c.toNat - '0'.toNat)
    else if 'a' ≤ c && c ≤ 'f' then some (c.toNat - 'a'.toNat + 10)
    else if 'A' ≤ c && c ≤ 'F' then some (c.toNat - 'A'.toNat + 10)
    else none
  v.filter (· < base)

/-- Digits appended to a number. -/
def appendDigits (base : Nat) : Nat → List Char → Option Nat
  | n, [] => some n
  | n, c :: rest => (digitValue? base c).bind fun d => appendDigits base (base * n + d) rest

def readNat? (base : Nat) : List Char → Option Nat
  | [] => none
  | cs => appendDigits base 0 cs

/-- An optional sign, as whether it is a minus, and what follows it. -/
def takeSign : List Char → Bool × List Char
  | '-' :: rest => (true, rest)
  | '+' :: rest => (false, rest)
  | cs => (false, cs)

def readInt? (base : Nat) (cs : List Char) : Option Int64 :=
  let (negative, digits) := takeSign cs
  (readNat? base digits).bind fun n => fit? (if negative then -(n : Int) else n)

/-- The leading decimal digits, and what follows them. -/
def spanDigits (cs : List Char) : List Char × List Char := (cs.takeWhile Char.isDigit, cs.dropWhile Char.isDigit)

/-- An exponent at the end of a number: none, or a mark, an optional sign and digits. -/
def readExponent? : List Char → Option Int
  | [] => some 0
  | c :: rest =>
    if c = 'e' || c = 'E' then
      let (negative, digits) := takeSign rest
      (readNat? 10 digits).map fun n => if negative then -(n : Int) else n
    else none

/-- The double nearest to `± n · 10^e`. Exponents beyond the range of doubles are not computed with. -/
def ofScientific (negative : Bool) (n : Nat) (e : Int) : Float :=
  let size : Int := (Nat.toDigits 10 n).length
  if n = 0 || e + size < -400 then Binary64.nearest negative 0 1
  else if e + size > 400 then Binary64.infinity negative
  else if 0 ≤ e then Binary64.nearest negative (n * Nat.pow 10 e.toNat) 1
  else Binary64.nearest negative n (Nat.pow 10 (-e).toNat)

/-- A number of digits with an optional point and exponent. -/
def readDecimal? (negative : Bool) (cs : List Char) : Option Float :=
  let (whole, rest) := spanDigits cs
  let (fraction, rest) := match rest with
    | '.' :: more => spanDigits more
    | _ => ([], rest)
  if whole.isEmpty && fraction.isEmpty then none
  else do
    let e ← readExponent? rest
    let n ← appendDigits 10 0 (whole ++ fraction)
    pure (ofScientific negative n (e - fraction.length))

def readFloat? (cs : List Char) : Option Float :=
  let (negative, rest) := takeSign cs
  let word := rest.map Char.toLower
  if word = "inf".toList || word = "infinity".toList then some (Binary64.infinity negative)
  else if word = "nan".toList then some (if negative then -(0.0 / 0.0) else 0.0 / 0.0)
  else readDecimal? negative rest

/-! # Shortest decimals

Every double is the nearest double to an interval of reals. The digits written
for it are those of the shortest decimal in that interval, and of several such
the one nearest to the double. The search goes through the decimal grids from
coarse to fine and tests the two neighbours of the double on each. -/

/-- Decimal digits, most significant first, of `0.d₁d₂… · 10^point`. -/
structure Digits where
  digits : List Nat
  point : Int

/-- The decimal digits of a number, most significant first. -/
def digitsOf (n : Nat) : List Nat := (Nat.toDigits 10 n).map fun c => c.toNat - '0'.toNat

/-- A number times a power of ten, as a fraction. -/
def timesPow10 (num den : Nat) (k : Int) : Nat × Nat :=
  if 0 ≤ k then (num * Nat.pow 10 k.toNat, den) else (num, den * Nat.pow 10 (-k).toNat)

/-- The exponent of the leading decimal digit of a positive fraction. -/
def leadingExponent (num den : Nat) : Int :=
  if den ≤ num then ((digitsOf (num / den)).length : Int) - 1
  else
    let d := (digitsOf (den / num)).length
    if den ≤ num * Nat.pow 10 (d - 1) then -((d : Int) - 1) else -(d : Int)

/-- Reals that round to a double: `low / den` to `high / den`, around `mid / den`. -/
structure Interval where
  low : Nat
  mid : Nat
  high : Nat
  den : Nat
  closed : Bool

/-- The interval of `m · 2^q`. The ends belong to it when `m` is even. -/
def Interval.of (m : Nat) (q : Int) : Interval :=
  let low := if m = Binary64.hiddenBit && q > Binary64.minExponent then 4 * m - 1 else 4 * m - 2
  let (num, den) := if 2 ≤ q then (1 <<< (q - 2).toNat, 1) else (1, 1 <<< (2 - q).toNat)
  ⟨low * num, 4 * m * num, (4 * m + 2) * num, den, m % 2 == 0⟩

/-- Whether `num / den` lies in the interval. -/
def Interval.contains (i : Interval) (num den : Nat) : Bool :=
  if i.closed then decide (i.low * den ≤ num * i.den) && decide (num * i.den ≤ i.high * den)
  else decide (i.low * den < num * i.den) && decide (num * i.den < i.high * den)

/-- The multiple of `10^k` chosen on that grid: the neighbour in the interval that is nearer, the upper one at a tie. -/
def Interval.onGrid (i : Interval) (k : Int) : Option Nat :=
  let (num, den) := timesPow10 i.mid i.den (-k)
  let below := num / den
  let above := below + 1
  let inside (c : Nat) : Bool :=
    let (a, b) := timesPow10 c 1 k
    i.contains a b
  match inside below, inside above with
  | true, false => some below
  | false, true => some above
  | false, false => none
  | true, true => if 2 * (num % den) < den then some below else some above

def dropTrailingZeros (ds : List Nat) : List Nat := (ds.reverse.dropWhile (· == 0)).reverse

/-- The first grid, from `count` digits on, with a multiple in the interval. -/
def Interval.search (i : Interval) (lead : Int) : Nat → Nat → Digits
  | 0, _ => ⟨[], 0⟩
  | fuel + 1, count =>
    match i.onGrid (lead + 1 - count) with
    | some c =>
      let ds := digitsOf c
      ⟨dropTrailingZeros ds, lead + 1 - count + ds.length⟩
    | none => i.search lead fuel (count + 1)

/-- The shortest digits of a positive finite double; seventeen always suffice. -/
def shortest (x : Float) : Digits :=
  let (m, q) := Binary64.decode x
  let i := Interval.of m q
  i.search (leadingExponent i.mid i.den) 17 1

structure FloatFormat where
  /-- Least exponent of the leading digit that is written without an exponent. -/
  minPositional : Int
  /-- Greatest such exponent. -/
  maxPositional : Int

/-- Positional from `10^-4` up to, and without, `10^16`. -/
def floatFormat : FloatFormat := ⟨-4, 15⟩

def digitChar (d : Nat) : Char := Char.ofNat ('0'.toNat + d)

def digitText (ds : List Nat) : String := String.ofList (ds.map digitChar)

/-- Digits with a point at its place and at least one digit on either side. -/
def positional (d : Digits) : String :=
  let n : Int := d.digits.length
  if d.point ≤ 0 then "0." ++ digitText (List.replicate (-d.point).toNat 0 ++ d.digits)
  else if n ≤ d.point then
    digitText (d.digits ++ List.replicate (d.point - n).toNat 0) ++ ".0"
  else digitText (d.digits.take d.point.toNat) ++ "." ++ digitText (d.digits.drop d.point.toNat)

/-- One digit before the point and the exponent after the digits. -/
def exponential (d : Digits) : String :=
  let mantissa := match d.digits with
    | [] => "0"
    | [a] => digitText [a]
    | a :: rest => digitText [a] ++ "." ++ digitText rest
  mantissa ++ "e" ++ toString (d.point - 1)

def floatText (x : Float) : String :=
  if x.isNaN then "NaN"
  else
    let sign := if Binary64.isNegative x then "-" else ""
    if x.isInf then sign ++ "inf"
    else if x == 0.0 then sign ++ "0.0"
    else
      let d := shortest x
      let lead := d.point - 1
      if floatFormat.minPositional ≤ lead && lead ≤ floatFormat.maxPositional then
        sign ++ positional d
      else sign ++ exponential d

end PathScript.Number
