import RecordFormat.Floating.Format

/-!
# Shortest decimal text

A finite number prints with the fewest digits that read back as the same number, and of
those with the nearest. `Style` says which of two equally near decimals is taken, when the
point is positional and how an exponent is written.
-/

namespace RecordFormat.Decimal

/-- A decimal `d.ddd × 10 ^ exponent`, with no zero digit at the end. -/
structure Scientific where
  digits : Nat
  exponent : Int
  deriving DecidableEq, Repr

/-- Which of two equally near decimals is taken. -/
inductive Tie where
  | toEven
  | upwards
  deriving DecidableEq, Repr

/-- The reals that read back as a finite positive number, in quarters of a smallest
subnormal: the number, the ends of the interval, and whether the ends belong to it. -/
structure Interval where
  value : Nat
  low : Nat
  high : Nat
  closed : Bool

def Interval.contains (i : Interval) (num den : Nat) : Bool :=
  if i.closed then i.low * den ≤ num && num ≤ i.high * den
  else i.low * den < num && num < i.high * den

/-- Half a step to either side, a quarter below a power of two whose lower neighbours are
denser. -/
def Interval.of (f : Format) (bits : Nat) : Interval :=
  let (m, k) := f.significand bits
  let step := 1 <<< k
  let below := if m = 1 <<< f.fraction ∧ 0 < k then step else 2 * step
  ⟨4 * m * step, 4 * m * step - below, 4 * m * step + 2 * step, m % 2 == 0⟩

/-- Quarters of a smallest subnormal in one. -/
def one (f : Format) : Nat := 1 <<< (f.scale + 2)

/-- The decimal exponent of a positive number `value / unit`, which lies between
`10 ^ e` and `10 ^ (e + 1)`. -/
def leadingExponent (unit value : Nat) : Int :=
  if unit ≤ value then Nat.log2 (value / unit) * 30102 / 100000 |> upward
  else -((List.range 400).find? fun j => unit ≤ value * Nat.pow 10 j).getD 0
where
  /-- Raises an estimate that may be one too low. -/
  upward (estimate : Nat) : Nat :=
    if unit * Nat.pow 10 (estimate + 1) ≤ value then estimate + 1 else estimate

/-- The nearest point of the grid of `10 ^ exponent` inside the interval, as a multiple. -/
def nearest? (tie : Tie) (unit : Nat) (i : Interval) (exponent : Int) : Option Nat :=
  let up := unit * Nat.pow 10 exponent.toNat
  let down := Nat.pow 10 (-exponent).toNat
  let floor := i.value * down / up
  let rest := i.value * down % up
  let low := i.contains (floor * up) down
  let high := i.contains ((floor + 1) * up) down
  let preferHigh := up < 2 * rest || (2 * rest == up && (tie == .upwards || floor % 2 == 1))
  if low && high then some (if preferHigh then floor + 1 else floor)
  else if low then some floor
  else if high then some (floor + 1)
  else none

/-- Drops zero digits at the end. -/
def strip (digits : Nat) : (fuel : Nat) → Nat
  | 0 => digits
  | fuel + 1 => if digits % 10 = 0 ∧ digits ≠ 0 then strip (digits / 10) fuel else digits

/-- The shortest decimal that reads back as the positive number with the given bits. -/
def shortest (tie : Tie) (f : Format) (bits : Nat) : Scientific :=
  let i := Interval.of f bits
  let e := leadingExponent (one f) i.value
  let point := (List.range 17).findSome? fun (n : Nat) =>
    (nearest? tie (one f) i (e - n)).map fun digits => (digits, e - n)
  let (digits, last) := point.getD (0, 0)
  ⟨strip digits 18, last + ((Nat.toDigits 10 digits).length - 1)⟩

/-- How a number is written: the exponents written with a positional point, whether a
positive exponent carries a sign, and which way an exact tie goes. -/
structure Style where
  lowest : Int
  highest : Int
  plus : Bool
  tie : Tie

/-- The text of a decimal. A positional text has at least one digit after the point. -/
def Style.text (style : Style) (d : Scientific) : String :=
  let digits := Nat.toDigits 10 d.digits
  if style.lowest ≤ d.exponent ∧ d.exponent ≤ style.highest then
    if d.exponent < 0 then
      "0." ++ String.ofList (List.replicate (-d.exponent - 1).toNat '0' ++ digits)
    else
      let whole := d.exponent.toNat + 1
      let padded := digits ++ List.replicate (whole + 1 - digits.length) '0'
      String.ofList (padded.take whole) ++ "." ++ String.ofList (padded.drop whole)
  else
    let tail := digits.drop 1
    let mantissa := digits.take 1 ++ if tail.isEmpty then [] else '.' :: tail
    let sign := if 0 ≤ d.exponent && style.plus then "+" else ""
    String.ofList mantissa ++ "e" ++ sign ++ toString d.exponent

/-- The text of any number; infinities and what is not a number have names. -/
def Style.render (style : Style) (f : Format) (bits : Nat) : String :=
  if f.isNaN bits then "NaN"
  else
    let sign := if f.negative bits then "-" else ""
    let magnitude :=
      if !f.isFinite bits then "inf"
      else if f.magnitude bits = 0 then "0.0"
      else style.text (shortest style.tie f bits)
    sign ++ magnitude

end RecordFormat.Decimal

namespace RecordFormat

/-- The text of a single precision number. -/
def Binary32.text (style : Decimal.Style) (x : Binary32) : String :=
  style.render .single x.bits.toNat

/-- The text of a double precision number. -/
def Binary64.text (style : Decimal.Style) (x : Binary64) : String :=
  style.render .double x.bits.toNat

end RecordFormat
