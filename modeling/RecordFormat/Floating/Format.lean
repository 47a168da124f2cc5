/-!
# Binary interchange formats

A floating point number is kept as its bits. For a finite number `Format.units` is its
magnitude counted in multiples of the smallest subnormal, an exact natural number, so that
comparing, widening, narrowing and rounding are arithmetic on naturals.
-/

namespace RecordFormat

/-- The field widths of a binary interchange format: stored significand bits and
exponent bits. One sign bit comes first. -/
structure Format where
  fraction : Nat
  exponent : Nat
  deriving DecidableEq, Repr

namespace Format

def single : Format := ⟨23, 8⟩

def double : Format := ⟨52, 11⟩

variable (f : Format)

/-- The bits without the sign. -/
def magnitude (bits : Nat) : Nat := bits % (1 <<< (f.fraction + f.exponent))

/-- True when the sign bit is set. -/
def negative (bits : Nat) : Bool := (bits >>> (f.fraction + f.exponent)) % 2 == 1

/-- The magnitude bits of infinity. Larger magnitudes are not numbers. -/
def infinity : Nat := ((1 <<< f.exponent) - 1) <<< f.fraction

/-- The magnitude bits of a quiet not-a-number with an empty payload. -/
def quietBit : Nat := 1 <<< (f.fraction - 1)

/-- The sign bit, alone. -/
def signBit : Nat := 1 <<< (f.fraction + f.exponent)

def isFinite (bits : Nat) : Bool := f.magnitude bits < f.infinity

def isNaN (bits : Nat) : Bool := f.infinity < f.magnitude bits

/-- How many smallest subnormals make one, as a power of two. -/
def scale : Nat := (1 <<< (f.exponent - 1)) - 1 + f.fraction - 1

/-- The significand of a finite number and the power of two it is multiplied by, in
smallest subnormals. -/
def significand (bits : Nat) : Nat × Nat :=
  let field := f.magnitude bits >>> f.fraction
  let stored := f.magnitude bits % (1 <<< f.fraction)
  if field = 0 then (stored, 0) else (stored + (1 <<< f.fraction), field - 1)

/-- The magnitude of a finite number in smallest subnormals. -/
def units (bits : Nat) : Nat :=
  let (m, k) := f.significand bits
  m <<< k

/-- Magnitude bits of the number nearest to `num / den` smallest subnormals, a tie going to
the even significand; at least half a step above the largest finite number it is infinity. -/
def round (num den : Nat) : Nat :=
  let k := Nat.log2 (num / den) - f.fraction
  let step := den <<< k
  let low := num / step
  let rest := num % step
  let up := step < 2 * rest || (2 * rest == step && low % 2 == 1)
  min ((k <<< f.fraction) + if up then low + 1 else low) f.infinity

/-- `magnitude` with the given sign. -/
def withSign (negative : Bool) (magnitude : Nat) : Nat :=
  if negative then f.signBit + magnitude else magnitude

/-- Position in the total order of all bit patterns: negative before positive, and
magnitudes upwards away from zero. -/
def rank (bits : Nat) : Int :=
  if f.negative bits then -(f.magnitude bits : Int) - 1 else f.magnitude bits

/-- Numeric equality: the two zeros are equal, and what is not a number equals nothing. -/
def same (a b : Nat) : Bool :=
  !f.isNaN a && !f.isNaN b &&
    (a == b || (f.magnitude a == 0 && f.magnitude b == 0))

end Format

/-- A single precision number, by its bits. -/
structure Binary32 where
  bits : UInt32
  deriving DecidableEq, Repr, Inhabited

/-- A double precision number, by its bits. -/
structure Binary64 where
  bits : UInt64
  deriving DecidableEq, Repr, Inhabited

namespace Binary64

private abbrev nat (x : Binary64) : Nat := x.bits.toNat

def isFinite (x : Binary64) : Bool := Format.double.isFinite x.nat

def isNaN (x : Binary64) : Bool := Format.double.isNaN x.nat

def isNegative (x : Binary64) : Bool := Format.double.negative x.nat

/-- Numeric equality. -/
def same (x y : Binary64) : Bool := Format.double.same x.nat y.nat

/-- The total order on bit patterns. -/
def totalOrder (x y : Binary64) : Ordering :=
  compare (Format.double.rank x.nat) (Format.double.rank y.nat)

/-- A number from its sign and the bits of its magnitude. -/
def ofMagnitude (negative : Bool) (magnitude : Nat) : Binary64 :=
  ⟨.ofNat (Format.double.withSign negative magnitude)⟩

/-- The number nearest to an integer. -/
def ofInt (n : Int) : Binary64 :=
  ofMagnitude (n < 0) (Format.double.round (n.natAbs <<< Format.double.scale) 1)

def neg (x : Binary64) : Binary64 := ofMagnitude (!x.isNegative) (Format.double.magnitude x.nat)

/-- True when the magnitude of `x` is at most `limit`. Nothing is within a limit that is
negative or not a number. -/
def within (x limit : Binary64) : Bool :=
  x.isFinite && !limit.isNaN &&
    (Format.double.magnitude x.nat == 0 && Format.double.magnitude limit.nat == 0 ||
      !limit.isNegative && Format.double.magnitude x.nat ≤ Format.double.magnitude limit.nat)

/-- Product of two finite numbers, rounded; `none` if it is too large. The sign of the
first is kept. -/
def scaleUp (x y : Binary64) : Option Binary64 :=
  let product := Format.double.round
    (Format.double.units x.nat * Format.double.units y.nat) (1 <<< Format.double.scale)
  if product < Format.double.infinity then some (ofMagnitude x.isNegative product) else none

/-- Quotient of two finite numbers, the divisor not zero, rounded. The sign of the first is
kept. -/
def scaleDown (x y : Binary64) : Binary64 :=
  ofMagnitude x.isNegative <| Format.double.round
    (Format.double.units x.nat <<< Format.double.scale) (Format.double.units y.nat)

/-- The double nearest to `10 ^ n`, for `n` at most 308. -/
def powerOfTen (n : Nat) : Binary64 := ofInt (Nat.pow 10 n)

def zero : Binary64 := ⟨0⟩

/-- The nearest single. What is not a number keeps its sign and the top of its payload and
becomes quiet. -/
def narrow (x : Binary64) : Binary32 :=
  let m := Format.double.magnitude x.nat
  let shift := Format.double.fraction - Format.single.fraction
  let magnitude :=
    if m < Format.double.infinity then
      Format.single.round (Format.double.units x.nat)
        (1 <<< (Format.double.scale - Format.single.scale))
    else if m = Format.double.infinity then Format.single.infinity
    else Format.single.infinity +
      (((m - Format.double.infinity) >>> shift) ||| Format.single.quietBit)
  ⟨.ofNat (Format.single.withSign x.isNegative magnitude)⟩

end Binary64

namespace Binary32

private abbrev word (x : Binary32) : Nat := x.bits.toNat

/-- The double of the same value. What is not a number keeps its sign and payload and
becomes quiet. -/
def widen (x : Binary32) : Binary64 :=
  let m := Format.single.magnitude x.word
  let shift := Format.double.fraction - Format.single.fraction
  let magnitude :=
    if m < Format.single.infinity then
      Format.double.round
        (Format.single.units x.word <<< (Format.double.scale - Format.single.scale)) 1
    else if m = Format.single.infinity then Format.double.infinity
    else Format.double.infinity +
      (((m - Format.single.infinity) <<< shift) ||| Format.double.quietBit)
  .ofMagnitude (Format.single.negative x.word) magnitude

/-- Numeric equality. -/
def same (x y : Binary32) : Bool := Format.single.same x.word y.word

/-- The total order on bit patterns. -/
def totalOrder (x y : Binary32) : Ordering :=
  compare (Format.single.rank x.word) (Format.single.rank y.word)

end Binary32

end RecordFormat
