import RecordFormat.Proofs.Codec.Versions
import RecordFormat.Proofs.Record.Growth
import RecordFormat.Record.Json

/-!
# Records as JSON objects

A record is written as the object of what `get` answers for each field of its table: a field
without a value is left out, and any other failure is one of the whole. Objects keep each member
once (`Json.exists_ofMembers`), and records that hold equal values are written alike
(`Value.toJson_eq_of_equal`).
-/

namespace RecordFormat

open Outcome
open Value (Equal)

/-! ## Members of an object -/

namespace Json

/-- A member with a new key is added. -/
theorem insertMember_perm {key : String} {value : Json} : ∀ {members : List (String × Json)},
    key ∉ members.map Prod.fst → (insertMember key value members).Perm ((key, value) :: members)
  | [], _ => .refl _
  | (k, v) :: rest, fresh => by
      rw [List.map_cons, List.mem_cons, not_or] at fresh
      rw [insertMember]
      by_cases before : key < k
      · rw [if_pos before]
      · rw [if_neg before, if_neg fresh.1]
        exact ((insertMember_perm fresh.2).cons (k, v)).trans (.swap ..)

theorem foldl_insertMember_perm : ∀ {members sorted : List (String × Json)},
    ((members ++ sorted).map Prod.fst).Nodup →
      (members.foldl (fun sorted (k, v) => insertMember k v sorted) sorted).Perm (members ++ sorted)
  | [], _, _ => .refl _
  | (k, v) :: rest, sorted, distinct => by
      rw [List.cons_append, List.map_cons, List.map_append] at distinct
      have fresh : k ∉ sorted.map Prod.fst := fun mem =>
        (List.nodup_cons.mp distinct).1 (List.mem_append_right _ mem)
      have all : (rest ++ insertMember k v sorted).Perm ((k, v) :: (rest ++ sorted)) :=
        ((insertMember_perm fresh).append_left rest).trans List.perm_middle
      have others : ((rest ++ insertMember k v sorted).map Prod.fst).Nodup := by
        rwa [(all.map Prod.fst).nodup_iff, List.map_cons, List.map_append]
      exact (foldl_insertMember_perm others).trans all

/-- **Members with keys of their own are all kept.** -/
theorem exists_ofMembers {members : List (String × Json)}
    (distinct : (members.map Prod.fst).Nodup) :
    ∃ sorted, ofMembers members = .object sorted ∧ sorted.Perm members := by
  rw [← List.append_nil members] at distinct
  have kept := foldl_insertMember_perm distinct
  rw [List.append_nil] at kept
  exact ⟨_, rfl, kept⟩

end Json

/-! ## What is written -/

theorem Value.toJson_list (items : List Value) :
    (Value.list items).toJson = Json.array <$> items.mapM Value.toJson := by
  rw [Value.toJson, mapM_attach Value.toJson, map_eq_pure_bind]

theorem Value.toJson_group (r : Record) : (Value.group r).toJson = r.toJson := by
  rw [Value.toJson]

namespace Record

/-- The member of a field, if it has a value. -/
def jsonMember (r : Record) (f : Field) : Except RecordError (Option (String × Json)) :=
  match r.get f with
  | .ok v => do return some (f.name, ← v.toJson)
  | .error (.noValue ..) | .error (.derivedNotBound ..) => pure none
  | .error e => throw e

variable {r s : Record} {f : Field} {v : Value} {j : Json} {o : Option (String × Json)}

theorem toJson_eq (r : Record) : r.toJson = do
    return .ofMembers ((← r.table.fields.mapM r.jsonMember).filterMap id) := by
  rw [toJson]
  refine congrArg (fun step => r.table.fields.mapM step >>= _) (funext fun f => ?_)
  unfold jsonMember
  split <;> simp_all

/-- **A record is written** where each field has a member or is left out. -/
theorem toJson_eq_ok_iff : r.toJson = .ok j ↔ ∃ members,
    List.Forall₂ (fun f o => r.jsonMember f = .ok o) r.table.fields members ∧
      j = .ofMembers (members.filterMap id) := by
  rw [toJson_eq, bind_eq_ok_iff]
  simp only [mapM_eq_ok_iff, pure_eq_ok_iff, eq_comm (a := j)]

/-- Records are written alike where their members are. -/
theorem toJson_congr (table : r.table = s.table)
    (members : ∀ f ∈ r.table.fields, r.jsonMember f = s.jsonMember f) : r.toJson = s.toJson := by
  rw [toJson_eq, toJson_eq, ← table, mapM_eq_mapM (List.forall₂_same.mpr members)]

theorem jsonMember_of_get (got : r.get f = .ok v) :
    r.jsonMember f = (fun j => some (f.name, j)) <$> v.toJson := by
  rw [jsonMember, got, map_eq_pure_bind]

/-- What is left out and what is not. -/
theorem jsonMember_eq_ok_iff : r.jsonMember f = .ok o ↔
    (∃ v j, r.get f = .ok v ∧ v.toJson = .ok j ∧ o = some (f.name, j)) ∨
      o = none ∧ ∃ table field, r.get f = .error (.noValue table field) ∨
        r.get f = .error (.derivedNotBound table field) := by
  cases got : r.get f with
  | ok v =>
      rw [jsonMember_of_get got, map_eq_ok_iff]
      simp [eq_comm]
  | error e =>
      rw [jsonMember, got]
      cases e <;> simp [pure, Except.pure, throw, throwThe, MonadExceptOf.throw, eq_comm]

theorem exists_get_of_jsonMember {member : String × Json} (shown : r.jsonMember f = .ok (some member)) :
    member.1 = f.name ∧ ∃ v, r.get f = .ok v ∧ v.toJson = .ok member.2 := by
  rcases jsonMember_eq_ok_iff.mp shown with ⟨v, j, got, written, same⟩ | ⟨⟨⟩, -⟩
  cases same
  exact ⟨rfl, v, got, written⟩

/-- Fields that are left out have no member, the others one of their own name. -/
theorem sublist_names {fields : List Field} {members : List (Option (String × Json))}
    (each : List.Forall₂ (fun f o => r.jsonMember f = .ok o) fields members) :
    List.Sublist ((members.filterMap id).map Prod.fst) (fields.map Field.name) := by
  induction each with
  | nil => exact .slnil
  | @cons f o fields members here _ ih =>
      cases o with
      | none => exact ih.cons f.name
      | some member =>
          rw [List.map_cons, ← (exists_get_of_jsonMember here).1]
          exact ih.cons_cons member.1

/-- A stored field that is left out is absent, and not required. -/
theorem absent_of_jsonMember (serves : r.codec.Serves) (hf : f ∈ r.table.storedFields)
    (omitted : r.jsonMember f = .ok none) :
    r.get f = f.absent r.table.name ∧ f.isRequired = false := by
  have eq := get_eq_storedValue serves hf
  rcases jsonMember_eq_ok_iff.mp omitted with ⟨_, _, -, -, ⟨⟩⟩ | ⟨-, table, field, failed⟩
  cases stored : r.storedValue f with
  | error e =>
      obtain ⟨cause, rfl⟩ := exists_cause_of_storedValue serves.covers hf stored
      rw [eq, stored] at failed
      rcases failed with failed | failed <;> cases failed
  | ok o =>
      rw [stored, ok_bind] at eq
      cases o with
      | some v =>
          rw [eq] at failed
          rcases failed with failed | failed <;> cases failed
      | none =>
          refine ⟨eq, ?_⟩
          by_contra required
          rw [Bool.not_eq_false] at required
          rw [eq, Option.elim_none, Field.absent, if_pos required] at failed
          rcases failed with failed | failed <;> cases failed

end Record

/-- No value is written as null. -/
theorem Value.isNull_of_toJson {v : Value} {j : Json} (written : v.toJson = .ok j) :
    j.isNull = false := by
  cases v with
  | scalar s =>
      rw [toJson, mapError_eq_ok_iff] at written
      cases s with
      | float | double =>
          rw [Scalar.toJson, Scalar.numberToJson] at written
          split at written <;> cases written
          rfl
      | bool | byte | int16 | int32 | int64 | string | binary =>
          cases written
          rfl
  | list items =>
      rw [toJson_list, map_eq_ok_iff] at written
      obtain ⟨_, -, rfl⟩ := written
      rfl
  | group r =>
      rw [toJson_group] at written
      obtain ⟨_, -, rfl⟩ := Record.toJson_eq_ok_iff.mp written
      rfl

/-! ## Equal records -/

namespace Record

variable {r s : Record}

/-- A settled record with no computation bound to a derived field. -/
structure Plain (r : Record) : Prop extends r.Settled where
  unbound : r.derived = []

theorem lasting_plain : Lasting Plain where
  wrote owns wrote := ⟨lasting_settled.wrote owns wrote, rfl⟩
  kept plain buffer := ⟨lasting_settled.kept plain.toSettled buffer, rfl⟩

/-- Records of one codec are written alike where their values are. -/
theorem toJson_eq_of_values {m n : IdMap Value} (serves : r.codec.Serves)
    (codec : s.codec = r.codec) (plain : r.Plain) (plain' : s.Plain) (read : r.values = .ok m)
    (read' : s.values = .ok n) (alike : ∀ f ∈ r.table.storedFields,
      Option.Rel (fun v w => v.toJson = w.toJson) (m.find? f.id) (n.find? f.id)) :
    r.toJson = s.toJson := by
  have table : s.table = r.table := congrArg TableCodec.table codec
  have serves' : s.codec.Serves := codec ▸ serves
  refine toJson_congr table.symm fun f hf => ?_
  by_cases derived : f.isDerived = true
  · rw [jsonMember, jsonMember, get_of_derived serves plain.unbound hf derived,
      get_of_derived serves' plain'.unbound (table ▸ hf) derived]
  · have stored := Table.mem_storedFields.mpr ⟨hf, Bool.not_eq_true _ ▸ derived⟩
    have got := get_eq serves plain.staged read stored
    have got' := get_eq serves' plain'.staged read' (table ▸ stored)
    have here := alike f stored
    unfold Field.valueIn at got got'
    generalize m.find? f.id = x at got here
    generalize n.find? f.id = y at got' here
    cases here with
    | none => rw [jsonMember, jsonMember, got, got', table]
    | some same => rw [jsonMember_of_get got, jsonMember_of_get got', same]

end Record

/-- **Equal values are written alike.** -/
theorem Value.toJson_eq_of_equal {op : Operator} {v w : Value} (equal : Equal v w)
    (serves : op.Everywhere TableCodec.Serves) (hv : op.Holds Record.Plain v)
    (hw : op.Holds Record.Plain w) : v.toJson = w.toJson := by
  induction equal generalizing op with
  | scalar s => rfl
  | @list xs ys length _ ih =>
      cases hv with
      | list hv =>
          cases hw with
          | list hw =>
              rw [toJson_list, toJson_list]
              refine congrArg _ (mapM_eq_mapM (List.forall₂_iff_get.mpr ⟨length, ?_⟩))
              intro i hx hy
              exact ih i _ _ (List.getElem?_eq_getElem hx) (List.getElem?_eq_getElem hy)
                serves.element (hv _ (List.getElem_mem hx)) (hw _ (List.getElem_mem hy))
  | @group r s m n _ hr hs ids related ih =>
      cases op with
      | fixed | string | binary | list => cases hv
      | group c =>
          obtain ⟨_, _, ⟨⟩, codec, plain, read, -, fitting⟩ := hv.exists_record
          obtain ⟨_, _, ⟨⟩, codec', plain', read', -, fitting'⟩ := hw.exists_record
          rw [hr, Except.ok.injEq] at read
          rw [hs, Except.ok.injEq] at read'
          subst codec read read'
          have inside : TableCodec.Everywhere TableCodec.Serves r.codec := serves
          rw [toJson_group, toJson_group]
          refine Record.toJson_eq_of_values inside.here codec' plain plain' hr hs fun f hf => ?_
          cases value : m.find? f.id with
          | none =>
              have absent := IdMap.find?_eq_none_iff.mp value
              rw [ids] at absent
              rw [IdMap.find?_eq_none_iff.mpr absent]
              exact .none
          | some v =>
              obtain ⟨w, value', -⟩ := IdMap.Agree.exists_right ⟨ids, related⟩ value
              obtain ⟨slot, known, -⟩ := inside.here.slot f hf
              rw [value']
              exact .some (ih _ v w value value' (inside.slot (TableCodec.mem_of_slot? known))
                (fitting _ _ _ value known) (fitting' _ _ _ value' known))

end RecordFormat
