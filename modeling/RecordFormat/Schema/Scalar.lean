import RecordFormat.Json.Printer
import RecordFormat.Octets
import RecordFormat.Schema.Primitive

/-!
# Scalars

One value of a primitive kind: its order, its numeric equality, the check that a field of the
kind may hold it, and its JSON form.
-/

namespace RecordFormat

/-- A value of a primitive kind. Floating point numbers are kept by their bits. -/
inductive Scalar where
  | bool (value : Bool)
  | byte (value : Int8)
  | int16 (value : Int16)
  | int32 (value : Int32)
  | int64 (value : Int64)
  | float (value : Binary32)
  | double (value : Binary64)
  | string (value : String)
  | binary (value : Bytes)
  deriving DecidableEq

namespace Scalar

/-- The kind of a scalar; never a sentinel. -/
def kind : Scalar → Primitive
  | .bool _ => .bool
  | .byte _ => .byte
  | .int16 _ => .int16
  | .int32 _ => .int32
  | .int64 _ => .int64
  | .float _ => .float
  | .double _ => .double
  | .string _ => .string
  | .binary _ => .binary

/-- Equality of values: as `=`, except that floating point numbers are compared as
numbers. -/
def same : Scalar → Scalar → Bool
  | .float a, .float b => a.same b
  | .double a, .double b => a.same b
  | a, b => a = b

/-- The order of two scalars of one kind: numeric, false before true, strings and binary by
their octets, floating point numbers in their total order. -/
def order? : Scalar → Scalar → Option Ordering
  | .bool a, .bool b => some (compare a.toNat b.toNat)
  | .byte a, .byte b => some (compare a.toInt b.toInt)
  | .int16 a, .int16 b => some (compare a.toInt b.toInt)
  | .int32 a, .int32 b => some (compare a.toInt b.toInt)
  | .int64 a, .int64 b => some (compare a.toInt b.toInt)
  | .float a, .float b => some (a.totalOrder b)
  | .double a, .double b => some (a.totalOrder b)
  | .string a, .string b => some (compare a b)
  | .binary a, .binary b => some (compare (octets a) (octets b))
  | _, _ => none

/-- The value of an integer kind. -/
def asInt? : Scalar → Option Int64
  | .byte v => some v.toInt64
  | .int16 v => some v.toInt64
  | .int32 v => some v.toInt64
  | .int64 v => some v
  | _ => none

/-- The value of a floating point kind, as a double. -/
def asBinary64? : Scalar → Option Binary64
  | .float v => some v.widen
  | .double v => some v
  | _ => none

def asBool? : Scalar → Option Bool
  | .bool v => some v
  | _ => none

def asString? : Scalar → Option String
  | .string v => some v
  | _ => none

def asBytes? : Scalar → Option Bytes
  | .binary v => some v
  | _ => none

/-- True when a field of kind `p` may hold the scalar: it is of that kind, a floating point
number is finite and within `limit`, and a string or binary fits its length slot. -/
def fits (p : Primitive) (limit : Binary64) (s : Scalar) : Bool :=
  s.kind = p && match s with
    | .float v => v.widen.within limit
    | .double v => v.within limit
    | .string v => v.utf8ByteSize ≤ BigEndian.maximum 2
    | .binary v => v.size ≤ BigEndian.maximum 4
    | _ => true

end Scalar

/-- Why a value has no JSON form, or a JSON value no value of the wanted type. -/
inductive JsonFault where
  | expected (what : String) (got : Json)
  | outOfRange (value : Int) (type : String)
  | noValues (type : String)
  | notRepresentable (value : Binary64)
  | notStored

namespace JsonFault

/-- Only used for the names of numbers that are not finite. -/
private def valueStyle : Decimal.Style := ⟨-5, 15, false, .toEven⟩

def message : JsonFault → String
  | .expected what got => s!"expected {what}, got {got.compact}"
  | .outOfRange value type => s!"{value} out of range for {type}"
  | .noValues type => s!"type {type} has no values"
  | .notRepresentable value => s!"{value.text valueStyle} is not representable in JSON"
  | .notStored => "field is not stored"

end JsonFault

namespace Scalar

/-- A JSON integer of 64 bits. -/
def integerOfJson (j : Json) : Except JsonFault Int :=
  match j.asInt? with
  | some n => .ok n
  | none => .error (.expected "integer" j)

/-- A JSON integer between the given ends. -/
def boundedOfJson (low high : Int) (type : String) (j : Json) : Except JsonFault Int := do
  let n ← integerOfJson j
  if low ≤ n ∧ n ≤ high then return n else throw (.outOfRange n type)

/-- What `view` shows of a JSON value, or the fault that it is not `what`. -/
def viewOfJson {α : Type} (what : String) (view : Json → Option α) (j : Json) :
    Except JsonFault α :=
  match view j with
  | some a => .ok a
  | none => .error (.expected what j)

/-- The scalar of kind `p` that a JSON value stands for. Binary is an array of octets. -/
def ofJson (p : Primitive) (j : Json) : Except JsonFault Scalar :=
  match p with
  | .bool => .bool <$> viewOfJson "boolean" Json.asBool? j
  | .byte => (.byte ∘ Int8.ofInt) <$> boundedOfJson (-0x80) 0x7F "byte" j
  | .int16 => (.int16 ∘ Int16.ofInt) <$> boundedOfJson (-0x8000) 0x7FFF "int16" j
  | .int32 => (.int32 ∘ Int32.ofInt) <$> boundedOfJson (-0x80000000) 0x7FFFFFFF "int32" j
  | .int64 => (.int64 ∘ Int64.ofInt) <$> integerOfJson j
  | .float => (.float ∘ Binary64.narrow) <$> viewOfJson "number" Json.asBinary64? j
  | .double => .double <$> viewOfJson "number" Json.asBinary64? j
  | .string => .string <$> viewOfJson "string" Json.asString? j
  | .binary => do
    let items ← viewOfJson "byte array" Json.asArray? j
    let numbers ← items.mapM (boundedOfJson 0 255 "binary byte")
    return .binary (numbers.map fun n => UInt8.ofNat n.toNat).toByteArray
  | p => .error (.noValues p.name)

/-- A finite number as JSON. -/
def numberToJson (x : Binary64) : Except JsonFault Json :=
  if x.isFinite then .ok (.number x) else .error (.notRepresentable x)

/-- The JSON form of a scalar. -/
def toJson : Scalar → Except JsonFault Json
  | .bool v => .ok (.bool v)
  | .byte v => .ok (.integer v.toInt)
  | .int16 v => .ok (.integer v.toInt)
  | .int32 v => .ok (.integer v.toInt)
  | .int64 v => .ok (.integer v.toInt)
  | .float v => numberToJson v.widen
  | .double v => numberToJson v
  | .string v => .ok (.string v)
  | .binary v => .ok (.array ((octets v).map fun b => .integer b.toNat))

end Scalar

end RecordFormat
