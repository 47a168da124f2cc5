import Mathlib
import RecordFormat.Proofs.Floating.TotalOrder
import RecordFormat.Proofs.Text.ByteOrder
import RecordFormat.Schema.Scalar

/-!
# The natural order of scalars

Scalars of one kind are ordered: numbers by size, false before true, strings and binaries by their
octets, floating point numbers in their total order. `Scalar.order?` is this order, in which only
the same scalars are equal (`Scalar.order?_tells`), and gives no answer between kinds.
-/

namespace RecordFormat

/-- The ordering tells which of two things comes first, if they are not the same. -/
structure Tells (o : Ordering) (before same after : Prop) : Prop where
  lt : o = .lt ↔ before
  eq : o = .eq ↔ same
  gt : o = .gt ↔ after

namespace Tells

variable {o : Ordering} {before same after : Prop}

theorem imp {before' same' after' : Prop} (h : Tells o before same after) (lt : before ↔ before')
    (eq : same ↔ same') (gt : after ↔ after') : Tells o before' same' after' :=
  ⟨h.lt.trans lt, h.eq.trans eq, h.gt.trans gt⟩

/-- What is compared by keys is told apart by them. -/
theorem compare {α : Type} [Ord α] [LT α] [Std.LawfulEqOrd α] [Std.LawfulLTOrd α] (x y : α) :
    Tells (compare x y) (x < y) (x = y) (y < x) where
  lt := Std.LawfulLTCmp.eq_lt_iff_lt
  eq := Std.compare_eq_iff_eq
  gt := by
    rw [Std.OrientedOrd.eq_swap, Ordering.swap_eq_gt]
    exact Std.LawfulLTCmp.eq_lt_iff_lt

end Tells

namespace Scalar

/-- The natural order of scalars of one kind. -/
def Precedes : Scalar → Scalar → Prop
  | .bool a, .bool b => a = false ∧ b = true
  | .byte a, .byte b => a.toInt < b.toInt
  | .int16 a, .int16 b => a.toInt < b.toInt
  | .int32 a, .int32 b => a.toInt < b.toInt
  | .int64 a, .int64 b => a.toInt < b.toInt
  | .float a, .float b => Format.single.Precedes a.bits.toNat b.bits.toNat
  | .double a, .double b => Format.double.Precedes a.bits.toNat b.bits.toNat
  | .string a, .string b => octets (Text.utf8 a) < octets (Text.utf8 b)
  | .binary a, .binary b => octets a < octets b
  | _, _ => False

variable {s t u : Scalar} {o o' : Ordering}

/-- Scalars have an order when they are of one kind. -/
theorem isSome_order?_iff : (s.order? t).isSome = true ↔ s.kind = t.kind := by
  cases s <;> cases t <;> simp [order?, kind]

theorem exists_order? (same : s.kind = t.kind) : ∃ o, s.order? t = some o :=
  Option.isSome_iff_exists.mp (isSome_order?_iff.mpr same)

/-- **Scalars are in their natural order**, and only the same ones are equal. -/
theorem order?_tells (h : s.order? t = some o) :
    Tells o (s.Precedes t) (s = t) (t.Precedes s) := by
  match s, t, h with
  | .bool a, .bool b, rfl =>
      refine (Tells.compare a.toNat b.toNat).imp ?_ ?_ ?_ <;>
        cases a <;> cases b <;> simp [Precedes]
  | .byte a, .byte b, rfl =>
      exact (Tells.compare a.toInt b.toInt).imp .rfl (by rw [Int8.toInt_inj, byte.injEq]) .rfl
  | .int16 a, .int16 b, rfl =>
      exact (Tells.compare a.toInt b.toInt).imp .rfl (by rw [Int16.toInt_inj, int16.injEq]) .rfl
  | .int32 a, .int32 b, rfl =>
      exact (Tells.compare a.toInt b.toInt).imp .rfl (by rw [Int32.toInt_inj, int32.injEq]) .rfl
  | .int64 a, .int64 b, rfl =>
      exact (Tells.compare a.toInt b.toInt).imp .rfl (by rw [Int64.toInt_inj, int64.injEq]) .rfl
  | .float a, .float b, rfl =>
      rw [Binary32.totalOrder]
      refine (Tells.compare _ _).imp Format.precedes_iff.symm ?_ Format.precedes_iff.symm
      rw [float.injEq]
      exact ⟨Binary32.eq_of_rank, fun same => by rw [same]⟩
  | .double a, .double b, rfl =>
      rw [Binary64.totalOrder]
      refine (Tells.compare _ _).imp Format.precedes_iff.symm ?_ Format.precedes_iff.symm
      rw [double.injEq]
      exact ⟨Binary64.eq_of_rank, fun same => by rw [same]⟩
  | .string a, .string b, rfl =>
      rw [Text.compare_eq_compare_octets]
      refine (Tells.compare (octets (Text.utf8 a)) (octets (Text.utf8 b))).imp .rfl ?_ .rfl
      rw [octets_inj, string.injEq]
      exact String.toByteArray_inj
  | .binary a, .binary b, rfl =>
      refine (Tells.compare (octets a) (octets b)).imp .rfl ?_ .rfl
      rw [octets_inj, binary.injEq]

/-- Compared the other way round, the order is the other one. -/
theorem order?_swap (h : s.order? t = some o) : t.order? s = some o.swap := by
  have tells := order?_tells h
  have same : s.kind = t.kind := isSome_order?_iff.mp (by rw [h]; rfl)
  obtain ⟨o', h'⟩ := exists_order? same.symm
  have tells' := order?_tells h'
  rw [h']
  cases o with
  | lt => rw [tells'.gt.mpr (tells.lt.mp rfl), Ordering.swap]
  | eq => rw [tells'.eq.mpr (tells.eq.mp rfl).symm, Ordering.swap]
  | gt => rw [tells'.lt.mpr (tells.gt.mp rfl), Ordering.swap]

/-- What is not after what is not after a third one is not after that. -/
theorem order?_trans (h : s.order? t = some o) (h' : t.order? u = some o') (le : o.isLE = true)
    (le' : o'.isLE = true) : ∃ o'', s.order? u = some o'' ∧ o''.isLE = true := by
  match s, t, u, h, h' with
  | .bool a, .bool b, .bool c, rfl, rfl
  | .byte a, .byte b, .byte c, rfl, rfl
  | .int16 a, .int16 b, .int16 c, rfl, rfl
  | .int32 a, .int32 b, .int32 c, rfl, rfl
  | .int64 a, .int64 b, .int64 c, rfl, rfl
  | .float a, .float b, .float c, rfl, rfl
  | .double a, .double b, .double c, rfl, rfl
  | .string a, .string b, .string c, rfl, rfl
  | .binary a, .binary b, .binary c, rfl, rfl => exact ⟨_, rfl, Std.TransOrd.isLE_trans le le'⟩

end Scalar

end RecordFormat
