import RecordFormat.Json.Value

/-!
# JSON number literals

A literal without point and exponent that fits 64 bits is an integer, except `-0`. Of any
other literal the leading digits that fit an unsigned 64-bit integer are read, later ones
only move the point, and the result is that integer multiplied or divided once by a power of
ten. A literal too large for a double is refused.
-/

namespace RecordFormat.Json

/-- The parts of a number literal. -/
structure Literal where
  negative : Bool
  whole : List Char
  fraction : Option (List Char)
  exponent : Option Int

private def digitValue (c : Char) : Nat := c.toNat - '0'.toNat

private def naturalOf (digits : List Char) : Nat :=
  digits.foldl (fun n c => n * 10 + digitValue c) 0

/-- Splits off the digits at the front; there must be one. -/
def leadingDigits? (cs : List Char) : Option (List Char × List Char) :=
  match cs.span Char.isDigit with
  | ([], _) => none
  | parts => some parts

/-- The exponent part, if the rest of the literal is one or is empty. -/
def exponent? : List Char → Option (Option Int)
  | [] => some none
  | e :: rest =>
    if e = 'e' ∨ e = 'E' then
      let (negative, digits) := match rest with
        | '-' :: ds => (true, ds)
        | '+' :: ds => (false, ds)
        | ds => (false, ds)
      match leadingDigits? digits with
      | some (ds, []) =>
        some (some (if negative then -(naturalOf ds : Int) else naturalOf ds))
      | _ => none
    else none

/-- Reads a literal that takes up all of `cs`. -/
def Literal.ofChars? (cs : List Char) : Option Literal := do
  let (negative, cs) := match cs with
    | '-' :: rest => (true, rest)
    | _ => (false, cs)
  let (whole, rest) ← leadingDigits? cs
  guard (whole.head? ≠ some '0' ∨ whole.length = 1)
  match rest with
  | '.' :: rest =>
    let (digits, rest) ← leadingDigits? rest
    return ⟨negative, whole, some digits, ← exponent? rest⟩
  | rest => return ⟨negative, whole, none, ← exponent? rest⟩

/-- Appends digits to `n` while the result fits 64 bits; also the digits left over. -/
def appendDigits (n : Nat) : List Char → Nat × List Char
  | [] => (n, [])
  | c :: rest =>
    if n * 10 + digitValue c < 0x10000000000000000 then appendDigits (n * 10 + digitValue c) rest
    else (n, c :: rest)

/-- Divides by `10 ^ n`, at most 308 powers at a time. -/
def divideByPower (x : Binary64) (n : Nat) : Binary64 :=
  if n ≤ 308 then x.scaleDown (.powerOfTen n)
  else if x.same .zero then x
  else divideByPower (x.scaleDown (.powerOfTen 308)) (n - 308)
termination_by n

/-- `n × 10 ^ exponent`, if it is not too large. -/
def scaled? (n : Nat) (exponent : Int) : Option Binary64 :=
  let x := Binary64.ofInt n
  if exponent < 0 then some (divideByPower x (-exponent).toNat)
  else if exponent ≤ 308 then x.scaleUp (.powerOfTen exponent.toNat)
  else if x.same .zero then some x
  else none

/-- The value of a literal. -/
def Literal.value? (l : Literal) : Option Json :=
  let (n, left) := appendDigits 0 l.whole
  let signed := fun (x : Binary64) => Json.number (if l.negative then x.neg else x)
  match l.fraction, l.exponent, left with
  | none, none, [] =>
    if !l.negative then some (.integer n)
    else if n = 0 ∨ 0x8000000000000000 < n then some (signed (.ofInt n))
    else some (.integer (-n))
  | _, _, _ =>
    let digits := l.fraction.getD []
    let (n, dropped) := appendDigits n digits
    let point : Int := (left.length : Int) - (digits.length - dropped.length : Nat)
    (scaled? n (point + l.exponent.getD 0)).map signed

end RecordFormat.Json
