import RecordFormat.Record.Access

/-!
# Records as JSON

A record is an object keyed by field names, a group is such an object again, a list an array.
Written out, absent fields show their defaults, and what has no value is left out. Read in,
null members count as absent and every other member is staged as a change to a new record.
-/

namespace RecordFormat

open Outcome

mutual

/-- The JSON form of a value. -/
def Value.toJson (v : Value) : Except RecordError Json :=
  match v with
  | .scalar s => s.toJson.mapError (.json s.kind.name)
  | .list items => do
    return .array (← items.attach.mapM fun ⟨x, _h⟩ => x.toJson)
  | .group r => r.toJson
termination_by (v.depth, 1)
decreasing_by
  · exact Prod.Lex.left _ _ (Nat.lt_succ_of_le (Value.depth_le_depthOfItems _h))
  · exact Prod.Lex.right _ Nat.zero_lt_one

/-- The JSON form of a record. -/
def Record.toJson (r : Record) : Except RecordError Json := do
  let members ← r.table.fields.mapM fun f =>
    match _h : r.get f with
    | .ok v => do return some (f.name, ← v.toJson)
    | .error (.noValue ..) | .error (.derivedNotBound ..) => pure none
    | .error e => throw e
  return .ofMembers (members.filterMap id)
termination_by (r.depth, 0)
decreasing_by
  exact Prod.Lex.left _ _ (Record.depth_of_get _h)

end

mutual

/-- The value of an operator's type that a JSON value stands for, in the named field. -/
def Operator.ofJson (op : Operator) (field : String) (j : Json) : Except RecordError Value :=
  match op with
  | .fixed kind _ => .scalar <$> (Scalar.ofJson kind.primitive j).mapError (.json field)
  | .string => .scalar <$> (Scalar.ofJson .string j).mapError (.json field)
  | .binary => .scalar <$> (Scalar.ofJson .binary j).mapError (.json field)
  | .group codec => .group <$> Record.ofJson codec j
  | .list element _ =>
    match j with
    | .array items => .list <$> items.attach.mapM fun ⟨x, _h⟩ => element.ofJson field x
    | j => .error (.json field (.expected "array" j))
termination_by (sizeOf j, 1)
decreasing_by
  · exact Prod.Lex.right _ Nat.zero_lt_one
  · refine Prod.Lex.left _ _ ?_
    have := List.sizeOf_lt_of_mem _h
    simp
    omega

/-- The record of a codec that a JSON object stands for. -/
def Record.ofJson (codec : TableCodec) (j : Json) : Except RecordError Record :=
  match j with
  | .object members =>
    members.attach.foldlM (fun r ⟨(name, member), _h⟩ => do
      match codec.table.fieldByName? name with
      | none => throw (.unknownField codec.table.name name)
      | some f =>
        refuseIf f.isDerived (.derivedNotWritable codec.table.name name)
        if member.isNull then return r
        else match codec.operator? f.id with
          | none => throw (.json name .notStored)
          | some op => r.set f (← op.ofJson name member)) (Record.empty codec)
  | j => .error (.json codec.table.name (.expected "object" j))
termination_by (sizeOf j, 0)
decreasing_by
  refine Prod.Lex.left _ _ ?_
  have := List.sizeOf_lt_of_mem _h
  simp at *
  omega

end

end RecordFormat
