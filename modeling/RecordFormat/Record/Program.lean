import RecordFormat.Record.Error
import RecordFormat.Wire.Buffer
import RecordFormat.Wire.Operator

/-!
# Programs over a record

The computation of a derived field is any program over what its record holds. It sees the record
as a `PlainRecord` and asks for the values of fields, one after the other, where what it is told,
failures included, decides how it goes on.
-/

namespace RecordFormat

mutual

/-- A value without the computations that may be bound in it. -/
inductive PlainValue where
  | scalar (s : Scalar)
  | list (items : List PlainValue)
  | group (record : PlainRecord)

/-- What a record holds, its bound computations apart. -/
structure PlainRecord where
  codec : TableCodec
  buffer : Option RecordBuffer
  pending : List (Int16 × PlainValue)
  cleared : List Int16

end

/-- A scalar, if the value is one. -/
def PlainValue.asScalar? : PlainValue → Option Scalar
  | .scalar s => some s
  | _ => none

inductive Program where
  /-- the answer, or a failure of the program's own -/
  | answer (result : Except RecordError Scalar)
  /-- the value of a field, whatever it is -/
  | pass (field : String)
  /-- goes on with what reading the field gives -/
  | ask (field : String) (next : Except RecordError PlainValue → Program)

/-- Goes on with the values of all the fields; the first that cannot be read ends the program. -/
def Program.askAll (next : List PlainValue → Program) : List String → Program
  | [] => next []
  | field :: rest => .ask field fun
    | .ok v => askAll (fun values => next (v :: values)) rest
    | .error e => .answer (.error e)

end RecordFormat
