import RecordFormat.Record.Access

/-!
# Comparing records

Two records are the same when their tables share a name and they hold the same values by
number, however they came by them. Records of tables with one name are ordered by the sort
key of the first.
-/

namespace RecordFormat

open Outcome

mutual

/-- Sameness of values; floating point numbers are compared as numbers. -/
def Value.same (a b : Value) : Bool :=
  match a, b with
  | .scalar s, .scalar t => s.same t
  | .list xs, .list ys =>
    xs.length = ys.length && (xs.attach.zip ys).all fun (⟨x, _h⟩, y) => x.same y
  | .group r, .group s => r.same s
  | _, _ => false
termination_by (a.depth, 1)
decreasing_by
  · exact Prod.Lex.left _ _ (Nat.lt_succ_of_le (Value.depth_le_depthOfItems _h))
  · exact Prod.Lex.right _ Nat.zero_lt_one

/-- Sameness of records. A record whose values cannot be read is the same as none. -/
def Record.same (r s : Record) : Bool :=
  r.table.name = s.table.name &&
    match _hr : r.values, s.values with
    | .ok m, .ok n =>
      m.length = n.length &&
        (m.attach.zip n).all fun (⟨e, _h⟩, f) => e.1 = f.1 && e.2.same f.2
    | _, _ => false
termination_by (r.depth, 0)
decreasing_by
  exact Prod.Lex.left _ _ (Record.depth_of_values _hr _h)

end

namespace Record

/-- The order of two records by the first one's sort key. Keys of different kinds, or that
are no scalars, count as equal. -/
def compareByKey (r s : Record) : Except RecordError Ordering := do
  refuseIf (r.table.name ≠ s.table.name) (.tableMismatch r.table.name s.table.name)
  match r.table.sortKey? with
  | none => throw (.noSortKey r.table.name)
  | some key =>
    let ours ← r.get key
    let theirs ← s.get key
    let order := (ours.order? theirs).getD .eq
    return if key.constraints.sort = some .descending then order.swap else order

end Record

end RecordFormat
