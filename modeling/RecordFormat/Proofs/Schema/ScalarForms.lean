import Mathlib
import RecordFormat.Json.Term
import RecordFormat.Proofs.Schema.Literals

/-!
# JSON values and the scalars that they stand for

Not every value of the type `Json` is one that a text can have: integers are of 64 bits, and an
object has no key twice (`Json.WellFormed`, `Json.wellFormed_of_ofText?`). Of such values
`Scalar.Form` says what each kind of scalar is written as, without regard to how they are read, and
reading and checking accept just these forms (`Scalar.form_iff`).
-/

namespace RecordFormat

open Outcome

/-! ## JSON values -/

namespace Json

/-- Integers are of 64 bits, signed or unsigned, and no object has a key twice. -/
inductive WellFormed : Json → Prop
  | null : WellFormed .null
  | bool (value : Bool) : WellFormed (.bool value)
  | integer {value : Int} : isIntegerRange value = true → WellFormed (.integer value)
  | number (value : Binary64) : WellFormed (.number value)
  | string (value : String) : WellFormed (.string value)
  | array {items : List Json} : (∀ x ∈ items, WellFormed x) → WellFormed (.array items)
  | object {members : List (String × Json)} : (members.map Prod.fst).Nodup →
      (∀ member ∈ members, WellFormed member.2) → WellFormed (.object members)

variable {key : String} {value j : Json} {members sorted : List (String × Json)}

theorem mem_insertMember {member : String × Json} : ∀ {sorted : List (String × Json)},
    member ∈ insertMember key value sorted → member = (key, value) ∨ member ∈ sorted
  | [], mem => .inl (List.mem_singleton.mp mem)
  | (k, v) :: rest, mem => by
      rw [insertMember] at mem
      split at mem
      · exact List.mem_cons.mp mem
      · split at mem
        · exact (List.mem_cons.mp mem).imp_right (List.mem_cons_of_mem _)
        · rcases List.mem_cons.mp mem with rfl | mem
          · exact .inr (List.mem_cons_self ..)
          · exact (mem_insertMember mem).imp_right (List.mem_cons_of_mem _)

/-- A member is put at its place. -/
theorem ascending_insertMember : ∀ {sorted : List (String × Json)},
    sorted.Pairwise (fun a b => a.1 < b.1) →
      (insertMember key value sorted).Pairwise fun a b => a.1 < b.1
  | [], _ => List.pairwise_singleton ..
  | (k, v) :: rest, ascending => by
      obtain ⟨first, others⟩ := List.pairwise_cons.mp ascending
      rw [insertMember]
      rcases lt_trichotomy key k with before | rfl | after
      · rw [if_pos before]
        refine List.pairwise_cons.mpr ⟨?_, ascending⟩
        intro member mem
        rcases List.mem_cons.mp mem with rfl | mem
        · exact before
        · exact before.trans (first member mem)
      · rw [if_neg (lt_irrefl _), if_pos rfl]
        exact List.pairwise_cons.mpr ⟨first, others⟩
      · rw [if_neg after.asymm, if_neg after.ne']
        refine List.pairwise_cons.mpr ⟨?_, ascending_insertMember others⟩
        intro member mem
        rcases mem_insertMember mem with rfl | mem
        · exact after
        · exact first member mem

theorem foldl_insertMember_keeps {P : Json → Prop} : ∀ {members sorted : List (String × Json)},
    sorted.Pairwise (fun a b => a.1 < b.1) → (∀ member ∈ members ++ sorted, P member.2) →
      (members.foldl (fun sorted (k, v) => insertMember k v sorted) sorted).Pairwise
          (fun a b => a.1 < b.1) ∧
        ∀ member ∈ members.foldl (fun sorted (k, v) => insertMember k v sorted) sorted, P member.2
  | [], _, ascending, all => ⟨ascending, all⟩
  | (k, v) :: rest, sorted, ascending, all => by
      simp only [List.foldl_cons]
      refine foldl_insertMember_keeps (ascending_insertMember ascending) ?_
      intro member mem
      rcases List.mem_append.mp mem with mem | mem
      · exact all member (List.mem_append_left _ (List.mem_cons_of_mem _ mem))
      · rcases mem_insertMember mem with rfl | mem
        · exact all (k, v) (List.mem_append_left _ (List.mem_cons_self ..))
        · exact all member (List.mem_append_right _ mem)

/-- Whatever keys the members have, the object has each of them once. -/
theorem wellFormed_ofMembers (all : ∀ member ∈ members, WellFormed member.2) :
    (ofMembers members).WellFormed := by
  have all' : ∀ member ∈ members ++ [], WellFormed member.2 := by rwa [List.append_nil]
  obtain ⟨ascending, inside⟩ := foldl_insertMember_keeps List.Pairwise.nil all'
  refine .object ?_ inside
  exact (List.pairwise_map.mpr ascending).imp ne_of_lt

theorem appendDigits_lt : ∀ {digits : List Char} {n : Nat}, n < 0x10000000000000000 →
    (appendDigits n digits).1 < 0x10000000000000000
  | [], _, small => small
  | c :: rest, n, small => by
      rw [appendDigits]
      split
      · next fits => exact appendDigits_lt fits
      · exact small

theorem Literal.wellFormed_of_value? {l : Literal} (h : l.value? = some j) : j.WellFormed := by
  have small : (appendDigits 0 l.whole).1 < 0x10000000000000000 := appendDigits_lt (by decide)
  unfold Literal.value? at h
  generalize appendDigits 0 l.whole = parts at h small
  obtain ⟨n, left⟩ := parts
  dsimp only at h small
  split at h
  · split at h
    · cases h
      refine .integer ?_
      simp only [isIntegerRange, Bool.and_eq_true, decide_eq_true_eq]
      omega
    · split at h
      · cases h
        exact .number _
      · next large =>
        cases h
        refine .integer ?_
        simp only [isIntegerRange, Bool.and_eq_true, decide_eq_true_eq]
        omega
  · obtain ⟨x, -, rfl⟩ := Option.map_eq_some_iff.mp h
    exact .number _

mutual

theorem Term.wellFormed_of_value? : ∀ {t : Term} {room : Nat} {j : Json},
    t.value? room = some j → j.WellFormed
  | .null, _, _, h => by
      rw [Term.value?] at h
      cases h
      exact .null
  | .bool b, _, _, h => by
      rw [Term.value?] at h
      cases h
      exact .bool b
  | .number literal, _, _, h => by
      rw [Term.value?] at h
      exact Literal.wellFormed_of_value? h
  | .string pieces, _, _, h => by
      rw [Term.value?, Option.map_eq_some_iff] at h
      obtain ⟨s, -, rfl⟩ := h
      exact .string s
  | .array items, room, _, h => by
      cases room with
      | zero =>
          rw [Term.value?] at h
          cases h
      | succ room =>
          rw [Term.value?, Option.map_eq_some_iff] at h
          obtain ⟨vs, read, rfl⟩ := h
          exact .array (wellFormed_of_itemValues? read)
  | .object members, room, _, h => by
      cases room with
      | zero =>
          rw [Term.value?] at h
          cases h
      | succ room =>
          rw [Term.value?, Option.map_eq_some_iff] at h
          obtain ⟨vs, read, rfl⟩ := h
          exact wellFormed_ofMembers (wellFormed_of_memberValues? read)

theorem wellFormed_of_itemValues? : ∀ {items : List Term} {room : Nat} {vs : List Json},
    itemValues? room items = some vs → ∀ v ∈ vs, v.WellFormed
  | [], _, _, h => by
      rw [itemValues?] at h
      cases h
      simp
  | t :: rest, room, _, h => by
      rw [itemValues?] at h
      simp only [Option.bind_eq_bind, Option.bind_eq_some_iff] at h
      obtain ⟨v, first, ws, others, same⟩ := h
      cases same
      exact List.forall_mem_cons.mpr
        ⟨Term.wellFormed_of_value? first, wellFormed_of_itemValues? others⟩

theorem wellFormed_of_memberValues? : ∀ {members : List (List Piece × Term)} {room : Nat}
    {vs : List (String × Json)}, memberValues? room members = some vs →
      ∀ member ∈ vs, member.2.WellFormed
  | [], _, _, h => by
      rw [memberValues?] at h
      cases h
      simp
  | (key, t) :: rest, room, _, h => by
      rw [memberValues?] at h
      simp only [Option.bind_eq_bind, Option.bind_eq_some_iff] at h
      obtain ⟨k, -, v, first, ws, others, same⟩ := h
      cases same
      exact List.forall_mem_cons.mpr
        ⟨Term.wellFormed_of_value? first, wellFormed_of_memberValues? others⟩

end

/-- **Texts have well-formed values** only. -/
theorem wellFormed_of_ofText? {text : String} (h : ofText? text = some j) : j.WellFormed := by
  obtain ⟨t, -, read⟩ := Option.bind_eq_some_iff.mp h
  exact Term.wellFormed_of_value? read

end Json

/-! ## Scalars -/

namespace Scalar

/-- What JSON values a scalar can be written as. For floating point that is any number that is
converted to the scalar, which must be finite and within the limit. Strings and binary are no
longer than their length slots can count. -/
inductive Form (limit : Binary64) : Json → Scalar → Prop
  | bool (v : Bool) : Form limit (.bool v) (.bool v)
  | byte (v : Int8) : Form limit (.integer v.toInt) (.byte v)
  | int16 (v : Int16) : Form limit (.integer v.toInt) (.int16 v)
  | int32 (v : Int32) : Form limit (.integer v.toInt) (.int32 v)
  | int64 (v : Int64) : Form limit (.integer v.toInt) (.int64 v)
  | float {j : Json} {x : Binary64} : j.asBinary64? = some x → x.narrow.widen.within limit = true →
      Form limit j (.float x.narrow)
  | double {j : Json} {x : Binary64} : j.asBinary64? = some x → x.within limit = true →
      Form limit j (.double x)
  | string {v : String} : v.utf8ByteSize ≤ 65535 → Form limit (.string v) (.string v)
  | binary {v : Bytes} : v.size ≤ 4294967295 →
      Form limit (.array ((octets v).map fun b => .integer b.toNat)) (.binary v)

variable {p : Primitive} {limit : Binary64} {j : Json} {s : Scalar}

theorem viewOfJson_eq_ok_iff {α : Type} {what : String} {view : Json → Option α} {a : α} :
    viewOfJson what view j = .ok a ↔ view j = some a := by
  unfold viewOfJson
  cases view j <;> simp

/-- A form is read as the scalar, which a field of its kind may hold. -/
theorem Form.read (form : Form limit j s) :
    ofJson s.kind j = .ok s ∧ s.fits s.kind limit = true := by
  -- What needs no conversion is the literal of the scalar.
  have literal : ∀ {s : Scalar} {j : Json}, s.fits s.kind limit = true → s.toJson = .ok j →
      ofJson s.kind j = .ok s ∧ s.fits s.kind limit = true := by
    intro s j fits written
    obtain ⟨j', written', read⟩ := exists_literal fits
    rw [written, Except.ok.injEq] at written'
    exact ⟨written' ▸ read, fits⟩
  cases form with
  | bool v => exact literal rfl rfl
  | byte v => exact literal rfl rfl
  | int16 v => exact literal rfl rfl
  | int32 v => exact literal rfl rfl
  | int64 v => exact literal rfl rfl
  | @float _ x number within =>
      refine ⟨?_, within⟩
      rw [kind, ofJson, viewOfJson_eq_ok_iff.mpr number]
      rfl
  | double number within =>
      refine ⟨?_, within⟩
      rw [kind, ofJson, viewOfJson_eq_ok_iff.mpr number]
      rfl
  | string short => exact literal (decide_eq_true short) rfl
  | binary short => exact literal (decide_eq_true short) rfl

/-- What is read and may be held is read from a form of it. -/
theorem form_of_read (wellFormed : j.WellFormed) (read : ofJson p j = .ok s)
    (fits : s.fits p limit = true) : s.kind = p ∧ Form limit j s := by
  unfold Scalar.fits at fits
  rw [Bool.and_eq_true, decide_eq_true_eq] at fits
  refine ⟨fits.1, ?_⟩
  replace fits := fits.2
  cases p with
  | bool =>
      obtain ⟨v, view, rfl⟩ := map_eq_ok_iff.mp read
      rw [viewOfJson_eq_ok_iff] at view
      cases j <;> cases view
      exact .bool v
  | byte =>
      obtain ⟨n, bounded, rfl⟩ := map_eq_ok_iff.mp read
      obtain ⟨rfl, low, high⟩ := (boundedOfJson_eq_ok_iff (by decide)).mp bounded
      have form : Form limit _ _ := .byte (Int8.ofInt n)
      rwa [Int8.toInt_ofInt_of_le low (by omega)] at form
  | int16 =>
      obtain ⟨n, bounded, rfl⟩ := map_eq_ok_iff.mp read
      obtain ⟨rfl, low, high⟩ := (boundedOfJson_eq_ok_iff (by decide)).mp bounded
      have form : Form limit _ _ := .int16 (Int16.ofInt n)
      rwa [Int16.toInt_ofInt_of_le low (by omega)] at form
  | int32 =>
      obtain ⟨n, bounded, rfl⟩ := map_eq_ok_iff.mp read
      obtain ⟨rfl, low, high⟩ := (boundedOfJson_eq_ok_iff (by decide)).mp bounded
      have form : Form limit _ _ := .int32 (Int32.ofInt n)
      rwa [Int32.toInt_ofInt_of_le low (by omega)] at form
  | int64 =>
      obtain ⟨n, integer, rfl⟩ := map_eq_ok_iff.mp read
      obtain ⟨rfl, high⟩ := integerOfJson_eq_ok_iff.mp integer
      cases wellFormed with
      | integer range =>
          rw [Json.isIntegerRange, Bool.and_eq_true, decide_eq_true_eq] at range
          have form : Form limit _ _ := .int64 (Int64.ofInt n)
          rwa [Int64.toInt_ofInt_of_le range.1 (by omega)] at form
  | float =>
      obtain ⟨x, view, rfl⟩ := map_eq_ok_iff.mp read
      exact .float (viewOfJson_eq_ok_iff.mp view) fits
  | double =>
      obtain ⟨x, view, rfl⟩ := map_eq_ok_iff.mp read
      exact .double (viewOfJson_eq_ok_iff.mp view) fits
  | string =>
      obtain ⟨v, view, rfl⟩ := map_eq_ok_iff.mp read
      rw [viewOfJson_eq_ok_iff] at view
      cases j <;> cases view
      exact .string (of_decide_eq_true fits)
  | binary =>
      obtain ⟨items, view, rest⟩ := bind_eq_ok_iff.mp read
      obtain ⟨numbers, bounded, same⟩ := bind_eq_ok_iff.mp rest
      obtain rfl := pure_eq_ok_iff.mp same
      rw [viewOfJson_eq_ok_iff] at view
      cases j <;> cases view
      obtain ⟨bytes, rfl, rfl⟩ := mapM_boundedOfJson_eq_ok_iff.mp bounded
      have form : Form limit _ _ := .binary (of_decide_eq_true fits)
      rw [map_ofNat_toNat] at form ⊢
      rwa [octets_toByteArray] at form
  | null | unknown => cases read

/-- **What is read as a scalar that a field of a kind may hold** is what is a form of it. -/
theorem form_iff (wellFormed : j.WellFormed) :
    ofJson p j = .ok s ∧ s.fits p limit = true ↔ s.kind = p ∧ Form limit j s := by
  constructor
  · rintro ⟨read, fits⟩
    exact form_of_read wellFormed read fits
  · rintro ⟨rfl, form⟩
    exact form.read

end Scalar

end RecordFormat
