import RecordFormat.Proofs.Record.JsonObjects

/-!
# Records from JSON objects

An object is read member by member, and each member stages one value or, if it is null, nothing.
So a record is read where every member does, and it is then a new record with these values staged
(`Record.ofJson_object_eq_ok_iff`). Whatever is read has the records that the operator is for
(`Operator.holds_of_ofJson`).
-/

namespace RecordFormat

open Outcome
open Value (Readable)

/-! ## New records with staged values -/

namespace Record

variable {c : TableCodec} {m : IdMap Value} {f : Field}

/-- A new record with staged values. -/
def holding (c : TableCodec) (m : IdMap Value) : Record := { Record.empty c with pending := m }

theorem values_holding (sorted : IdMap.Sorted m) : (holding c m).values = .ok m := by
  obtain ⟨m', read, value⟩ := exists_values (r := holding c m) sorted rfl
  rw [read, Except.ok.injEq]
  refine (sorted_of_values read).eq_of_find? sorted (funext fun i => ?_)
  rw [value]
  exact Option.or_none ..

theorem get_holding (serves : c.Serves) (sorted : IdMap.Sorted m) (hf : f ∈ c.table.storedFields) :
    (holding c m).get f = f.valueIn c.table.name m.find? :=
  get_eq (r := holding c m) serves sorted (values_holding sorted) hf

theorem isComplete_holding (serves : c.Serves) (sorted : IdMap.Sorted m) :
    (holding c m).isComplete = true ↔
      ∀ f ∈ c.table.storedFields, f.isRequired = true → (m.find? f.id).isSome = true := by
  rw [isComplete, Table.filter_isStored_requiredFields, List.all_eq_true]
  simp only [List.mem_filter, and_imp]
  refine forall₂_congr fun f hf => ?_
  rw [isSet_eq (r := holding c m) serves sorted (values_holding sorted) hf]

end Record

/-! ## Members -/

/-- What a member of an object stages in a record of the codec. -/
inductive TableCodec.Stages (c : TableCodec) : String × Json → Option (Int16 × Value) → Prop
  | null {f : Field} {j : Json} : c.table.fieldByName? f.name = some f → f.isDerived = false →
      j.isNull = true → Stages c (f.name, j) none
  | value {f : Field} {j : Json} {op : Operator} {v : Value} :
      c.table.fieldByName? f.name = some f → f.isDerived = false → j.isNull = false →
        c.operator? f.id = some op → op.ofJson f.name j = .ok v → op.accepts v = true →
          Stages c (f.name, j) (some (f.id, v))

namespace Record

variable {c : TableCodec} {r : Record}

/-- One member, read into a record. -/
def readMember (c : TableCodec) (r : Record) (member : String × Json) : Except RecordError Record :=
  match c.table.fieldByName? member.1 with
  | none => throw (.unknownField c.table.name member.1)
  | some f => do
    refuseIf f.isDerived (.derivedNotWritable c.table.name member.1)
    if member.2.isNull then return r
    else match c.operator? f.id with
      | none => throw (.json member.1 .notStored)
      | some op => r.set f (← op.ofJson member.1 member.2)

theorem ofJson_object (c : TableCodec) (members : List (String × Json)) :
    Record.ofJson c (.object members) = members.foldlM (readMember c) (Record.empty c) := by
  rw [Record.ofJson, List.foldlM_subtype (g := readMember c), List.unattach_attach]
  intro r member _
  rfl

/-- **A member stages its value**, if it has one that its field takes. -/
theorem readMember_eq_ok_iff {m : IdMap Value} {member : String × Json} :
    readMember c (holding c m) member = .ok r ↔
      ∃ o, c.Stages member o ∧ r = holding c (m.insertAll o.toList) := by
  obtain ⟨name, j⟩ := member
  constructor
  · intro read
    unfold readMember at read
    cases found : c.table.fieldByName? name with
    | none =>
        simp only [found] at read
        exact absurd read throw_ne_ok
    | some f =>
        simp only [found] at read
        obtain rfl : f.name = name := by simpa using List.find?_some found
        obtain ⟨_, stored, read⟩ := bind_eq_ok_iff.mp read
        rw [refuseIf_eq_ok_iff, Bool.not_eq_true] at stored
        by_cases null : j.isNull = true
        · rw [if_pos null, pure_eq_ok_iff] at read
          exact ⟨none, .null found stored null, read.symm⟩
        · rw [if_neg null] at read
          cases known : c.operator? f.id with
          | none =>
              rw [known] at read
              exact absurd read throw_ne_ok
          | some op =>
              rw [known] at read
              obtain ⟨v, here, read⟩ := bind_eq_ok_iff.mp read
              obtain ⟨own, op', same, -, known', accepted, rfl⟩ := set_eq_ok_iff.mp read
              obtain rfl : f = own :=
                Option.some.inj ((Table.resolve?_eq_self_iff.mpr found).symm.trans same)
              obtain rfl : op = op' := Option.some.inj (known.symm.trans known')
              exact ⟨_, .value found stored (Bool.not_eq_true _ ▸ null) known here accepted, rfl⟩
  · rintro ⟨o, stages, rfl⟩
    cases stages with
    | null found stored null =>
        rw [readMember, found]
        simp [stored, null, refuseIf, holding, IdMap.insertAll]
    | @value f j op v found stored null known read accepted =>
        have own := Table.resolve?_eq_self_iff.mpr found
        have set : (holding c m).set f v = .ok (holding c (m.insertAll [(f.id, v)])) :=
          set_eq_ok_iff.mpr ⟨f, op, own, stored, known, accepted, rfl⟩
        rw [readMember, found]
        simp [stored, null, refuseIf, ok_bind, known, read, set]

/-- Members one after the other stage their values in this order. -/
theorem foldlM_readMember_eq_ok_iff {members : List (String × Json)} {m : IdMap Value} :
    members.foldlM (readMember c) (holding c m) = .ok r ↔ ∃ os,
      List.Forall₂ c.Stages members os ∧ r = holding c (m.insertAll (os.filterMap id)) := by
  induction members generalizing m with
  | nil =>
      rw [List.foldlM_nil, pure_eq_ok_iff]
      simp [IdMap.insertAll, eq_comm]
  | cons member rest ih =>
      have step : ∀ o os, (m.insertAll o.toList).insertAll (List.filterMap id os) =
          m.insertAll (List.filterMap id (o :: os)) := by
        rintro (_ | e) os <;> rfl
      rw [List.foldlM_cons, bind_eq_ok_iff]
      simp only [readMember_eq_ok_iff, List.forall₂_cons_left_iff]
      constructor
      · rintro ⟨_, ⟨o, here, rfl⟩, later⟩
        obtain ⟨os, stages, rfl⟩ := ih.mp later
        exact ⟨o :: os, ⟨o, os, here, stages, rfl⟩, by rw [step]⟩
      · rintro ⟨_, ⟨o, os, here, stages, rfl⟩, rfl⟩
        exact ⟨_, ⟨o, here, rfl⟩, ih.mpr ⟨os, stages, by rw [step]⟩⟩

/-- **A record is read from an object** whose members all stage what they have: it is a new record
with these values. -/
theorem ofJson_object_eq_ok_iff {members : List (String × Json)} :
    Record.ofJson c (.object members) = .ok r ↔ ∃ os, List.Forall₂ c.Stages members os ∧
      r = holding c (IdMap.ofList (os.filterMap id)) := by
  rw [ofJson_object]
  exact foldlM_readMember_eq_ok_iff (m := [])

/-- Only objects are read as records. -/
theorem exists_of_ofJson {j : Json} (read : Record.ofJson c j = .ok r) : ∃ members os,
    j = .object members ∧ List.Forall₂ c.Stages members os ∧
      r = holding c (IdMap.ofList (os.filterMap id)) := by
  cases j with
  | object members =>
      obtain ⟨os, stages, rfl⟩ := ofJson_object_eq_ok_iff.mp read
      exact ⟨members, os, rfl, stages, rfl⟩
  | null | bool | integer | number | string | array =>
      rw [Record.ofJson] at read
      · cases read
      · rintro _ ⟨⟩

/-- What is staged comes from a member. -/
theorem exists_stages_of_find? {members : List (String × Json)} {os : List (Option (Int16 × Value))}
    (stages : List.Forall₂ c.Stages members os) {i : Int16} {v : Value}
    (found : IdMap.find? (IdMap.ofList (os.filterMap id)) i = some v) :
    ∃ member ∈ members, c.Stages member (some (i, v)) := by
  rcases IdMap.mem_insertAll (IdMap.mem_of_find? found) with mem | mem
  · cases mem
  · obtain ⟨o, mem, same⟩ := List.mem_filterMap.mp mem
    obtain ⟨member, hm, here⟩ := exists_left_of_mem stages mem
    exact ⟨member, hm, (show o = _ from same) ▸ here⟩

end Record

/-! ## What is read -/

namespace Json

theorem sizeOf_item_lt {items : List Json} {j : Json} (mem : j ∈ items) :
    sizeOf j < sizeOf (array items) := by
  have inside := List.sizeOf_lt_of_mem mem
  simp
  omega

theorem sizeOf_member_lt {members : List (String × Json)} {member : String × Json}
    (mem : member ∈ members) : sizeOf member.2 < sizeOf (object members) := by
  have inside := List.sizeOf_lt_of_mem mem
  obtain ⟨key, value⟩ := member
  simp at inside ⊢
  omega

end Json

namespace Operator

variable {P : Record → Prop} {name : String} {j : Json} {v : Value}

theorem ofJson_list_eq_ok_iff {element : Operator} {maxElements : Nat} :
    (list element maxElements).ofJson name j = .ok v ↔ ∃ items vs, j = .array items ∧
      List.Forall₂ (fun x w => element.ofJson name x = .ok w) items vs ∧ v = .list vs := by
  cases j with
  | array items =>
      rw [ofJson, mapM_attach (element.ofJson name), map_eq_ok_iff]
      simp only [mapM_eq_ok_iff, eq_comm (a := v), Json.array.injEq]
      constructor
      · rintro ⟨vs, each, same⟩
        exact ⟨items, vs, rfl, each, same⟩
      · rintro ⟨_, vs, rfl, each, same⟩
        exact ⟨vs, each, same⟩
  | null | bool | integer | number | string | object =>
      rw [ofJson]
      · simp
      · rintro _ ⟨⟩

theorem ofJson_group_eq_ok_iff {c : TableCodec} :
    (group c).ofJson name j = .ok v ↔ ∃ r, Record.ofJson c j = .ok r ∧ v = .group r := by
  rw [ofJson, map_eq_ok_iff]
  simp only [eq_comm]

/-- **What is read from JSON has the records that the operator is for**, each of them new but for
its staged values. -/
theorem holds_of_ofJson (fresh : ∀ c m, IdMap.Sorted m → P (Record.holding c m)) (op : Operator)
    (name : String) (j : Json) (v : Value) (read : op.ofJson name j = .ok v) : op.Holds P v := by
  match op with
  | .fixed kind limit =>
      rw [ofJson] at read
      obtain ⟨s, -, rfl⟩ := map_eq_ok_iff.mp read
      exact .fixed kind limit s
  | .string =>
      rw [ofJson] at read
      obtain ⟨s, -, rfl⟩ := map_eq_ok_iff.mp read
      exact .string s
  | .binary =>
      rw [ofJson] at read
      obtain ⟨s, -, rfl⟩ := map_eq_ok_iff.mp read
      exact .binary s
  | .list element maxElements =>
      obtain ⟨items, vs, rfl, each, rfl⟩ := ofJson_list_eq_ok_iff.mp read
      refine .list fun w hw => ?_
      obtain ⟨x, hx, here⟩ := exists_left_of_mem each hw
      have smaller := Json.sizeOf_item_lt hx
      exact holds_of_ofJson fresh element name x w here
  | .group c =>
      obtain ⟨r, object, rfl⟩ := ofJson_group_eq_ok_iff.mp read
      obtain ⟨members, os, rfl, stages, rfl⟩ := Record.exists_of_ofJson object
      have inside : ∀ i v, IdMap.find? (IdMap.ofList (os.filterMap id)) i = some v →
          ∃ op, c.operator? i = some op ∧ op.Holds P v := by
        intro i v found
        obtain ⟨member, mem, here⟩ := Record.exists_stages_of_find? stages found
        cases here with
        | @value f j op _ _ _ _ known read =>
            have smaller := Json.sizeOf_member_lt mem
            exact ⟨op, known, holds_of_ofJson fresh op f.name j v read⟩
      have sorted : IdMap.Sorted (IdMap.ofList (os.filterMap id)) := IdMap.sorted_nil.insertAll
      have values := Record.values_holding (c := c) sorted
      refine .group (r := Record.holding c _) (fresh c _ sorted) values ?_ ?_
      · intro i v found
        obtain ⟨op, -, holds⟩ := inside i v found
        exact holds.readable
      · intro i v s found slot
        obtain ⟨op, known, holds⟩ := inside i v found
        rw [TableCodec.operator?, show c.slot? i = some s from slot, Option.map_some,
          Option.some.injEq] at known
        rwa [known]
termination_by sizeOf j

end Operator

end RecordFormat
