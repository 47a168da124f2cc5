import Mathlib
import RecordFormat.Proofs.Floating.Widening
import RecordFormat.Proofs.Traversal
import RecordFormat.Schema.Constraints
import RecordFormat.Schema.Scalar

/-!
# Literals

What a definition says of a field besides its type: the names of its constraints
(`Constraints.ofNames_names`) and its default as a JSON value (`Scalar.exists_literal`). Both are
read back as what was written.
-/

namespace RecordFormat

open Outcome

namespace Constraints

/-- **The names of constraints are read as the constraints that they name**, all 48 of them. -/
theorem ofNames_names (c : Constraints) : ofNames c.names = .ok c := by
  obtain ⟨presence, sort, frequentlyUsed, derived, largeList⟩ := c
  cases presence <;> rcases sort with _ | _ | _ <;> cases frequentlyUsed <;> cases derived <;>
    cases largeList <;> cbv

end Constraints

namespace Scalar

theorem integerOfJson_eq_ok_iff {j : Json} {n : Int} :
    integerOfJson j = .ok n ↔ j = .integer n ∧ n < 0x8000000000000000 := by
  cases j with
  | integer k =>
      rw [integerOfJson, Json.asInt?]
      by_cases small : k < 0x8000000000000000
      · simp only [small, if_true, Except.ok.injEq, Json.integer.injEq]
        omega
      · simp only [small, if_false, reduceCtorEq, Json.integer.injEq, false_iff]
        omega
  | null | bool | number | string | array | object => simp [integerOfJson, Json.asInt?]

theorem boundedOfJson_eq_ok_iff {j : Json} {low high n : Int} {type : String}
    (small : high < 0x8000000000000000) :
    boundedOfJson low high type j = .ok n ↔ j = .integer n ∧ low ≤ n ∧ n ≤ high := by
  rw [boundedOfJson, bind_eq_ok_iff]
  constructor
  · rintro ⟨k, read, bounded⟩
    obtain ⟨rfl, -⟩ := integerOfJson_eq_ok_iff.mp read
    split at bounded
    · next inside =>
      obtain rfl := pure_eq_ok_iff.mp bounded
      exact ⟨rfl, inside⟩
    · exact absurd bounded throw_ne_ok
  · rintro ⟨rfl, inside⟩
    refine ⟨n, integerOfJson_eq_ok_iff.mpr ⟨rfl, by omega⟩, ?_⟩
    rw [if_pos inside]
    rfl

theorem numberToJson_eq_ok {x : Binary64} (finite : x.isFinite = true) :
    numberToJson x = .ok (.number x) :=
  if_pos finite

theorem isFinite_of_within {x limit : Binary64} (within : x.within limit = true) :
    x.isFinite = true := by
  rw [Binary64.within, Bool.and_eq_true, Bool.and_eq_true] at within
  exact within.1.1

/-- Arrays of integers that are octets. -/
theorem mapM_boundedOfJson_eq_ok_iff {items : List Json} {numbers : List Int} {type : String} :
    items.mapM (boundedOfJson 0 255 type) = .ok numbers ↔ ∃ bytes : List UInt8,
      items = bytes.map (fun b => Json.integer b.toNat) ∧
        numbers = bytes.map fun b => (b.toNat : Int) := by
  rw [mapM_eq_ok_iff]
  constructor
  · intro each
    have octet : ∀ x n, boundedOfJson 0 255 type x = .ok n →
        x = .integer (UInt8.ofNat n.toNat).toNat ∧ n = (UInt8.ofNat n.toNat).toNat := by
      intro x n read
      obtain ⟨rfl, low, high⟩ := (boundedOfJson_eq_ok_iff (by decide)).mp read
      have small : n.toNat < 256 := by omega
      rw [UInt8.toNat_ofNat_of_lt' small, Int.toNat_of_nonneg low]
      exact ⟨rfl, rfl⟩
    refine ⟨numbers.map fun n => UInt8.ofNat n.toNat, ?_, ?_⟩
    · rw [List.map_map, ← List.forall₂_eq_eq_eq, List.forall₂_map_right_iff]
      exact each.imp fun x n read => (octet x n read).1
    · rw [List.map_map, ← List.forall₂_eq_eq_eq, List.forall₂_map_right_iff, List.forall₂_same]
      intro n mem
      obtain ⟨x, -, read⟩ := exists_left_of_mem each mem
      exact (octet x n read).2
  · rintro ⟨bytes, rfl, rfl⟩
    rw [List.forall₂_map_left_iff, List.forall₂_map_right_iff]
    refine List.forall₂_same.mpr fun b _ => (boundedOfJson_eq_ok_iff (by decide)).mpr ⟨rfl, ?_⟩
    have bound := b.toNat_lt
    omega

theorem map_ofNat_toNat (bytes : List UInt8) :
    ((bytes.map fun b => (b.toNat : Int)).map fun n => UInt8.ofNat n.toNat) = bytes := by
  rw [List.map_map]
  simp [Function.comp_def]

/-- **A value that a field may hold is written as a literal that is read as that value.** -/
theorem exists_literal {p : Primitive} {limit : Binary64} {s : Scalar}
    (fits : s.fits p limit = true) : ∃ j, s.toJson = .ok j ∧ ofJson p j = .ok s := by
  unfold Scalar.fits at fits
  rw [Bool.and_eq_true, decide_eq_true_eq] at fits
  obtain ⟨rfl, fits⟩ := fits
  cases s with
  | bool v => exact ⟨_, rfl, rfl⟩
  | byte v =>
      have read : boundedOfJson (-0x80) 0x7F "byte" (.integer v.toInt) = .ok v.toInt :=
        (boundedOfJson_eq_ok_iff (by decide)).mpr ⟨rfl, v.le_toInt, v.toInt_le⟩
      refine ⟨_, rfl, ?_⟩
      rw [kind, ofJson, read]
      exact congrArg (Except.ok ∘ Scalar.byte) (Int8.ofInt_toInt v)
  | int16 v =>
      have read : boundedOfJson (-0x8000) 0x7FFF "int16" (.integer v.toInt) = .ok v.toInt :=
        (boundedOfJson_eq_ok_iff (by decide)).mpr ⟨rfl, v.le_toInt, v.toInt_le⟩
      refine ⟨_, rfl, ?_⟩
      rw [kind, ofJson, read]
      exact congrArg (Except.ok ∘ Scalar.int16) (Int16.ofInt_toInt v)
  | int32 v =>
      have read : boundedOfJson (-0x80000000) 0x7FFFFFFF "int32" (.integer v.toInt) = .ok v.toInt :=
        (boundedOfJson_eq_ok_iff (by decide)).mpr ⟨rfl, v.le_toInt, v.toInt_le⟩
      refine ⟨_, rfl, ?_⟩
      rw [kind, ofJson, read]
      exact congrArg (Except.ok ∘ Scalar.int32) (Int32.ofInt_toInt v)
  | int64 v =>
      refine ⟨_, rfl, ?_⟩
      rw [kind, ofJson, integerOfJson_eq_ok_iff.mpr ⟨rfl, v.toInt_lt⟩]
      exact congrArg (Except.ok ∘ Scalar.int64) (Int64.ofInt_toInt v)
  | float v =>
      have finite := isFinite_of_within fits
      refine ⟨_, numberToJson_eq_ok finite, ?_⟩
      exact congrArg (Except.ok ∘ Scalar.float)
        (Binary32.narrow_widen (Binary32.isFinite_of_widen finite))
  | double v => exact ⟨_, numberToJson_eq_ok (isFinite_of_within fits), rfl⟩
  | string v => exact ⟨_, rfl, rfl⟩
  | binary v =>
      refine ⟨_, rfl, ?_⟩
      show ((octets v).map fun b => Json.integer b.toNat).mapM (boundedOfJson 0 255 _) >>= _ = _
      rw [mapM_boundedOfJson_eq_ok_iff.mpr ⟨_, rfl, rfl⟩, ok_bind, map_ofNat_toNat]
      exact congrArg (Except.ok ∘ Scalar.binary) (octets_inj.mp (octets_toByteArray _))

end Scalar

end RecordFormat
