import RecordFormat.Proofs.Codec.Fields
import RecordFormat.Proofs.Codec.Nesting

/-!
# What a record answers

Every reader of a record looks at what is staged first, then at the buffer unless the field is
cleared there, and then at the field's default. When the values of the record can be read, the
readers all answer as that one map of values does: with what it has under the field's number, or
as for an absent field.
-/

namespace RecordFormat

open Outcome

/-! ## Answers of a map -/

namespace Field

variable (f : Field) (table : String) (M : Int16 → Option Value)

/-- What reading a field without a value gives: nothing is missing from an optional one. -/
def absent : Except RecordError Value :=
  if f.isRequired then .error (.missingRequired table f.name)
  else match f.effectiveDefault? with
    | some v => .ok v
    | none => .error (.noValue table f.name)

/-- The value of a field in a map, or what stands for it. -/
def valueIn : Except RecordError Value :=
  match M f.id with
  | some v => .ok v
  | none => f.absent table

/-- The items of a list field in a map. An absent optional list is empty. -/
def itemsIn : Except RecordError (List Value) :=
  match M f.id with
  | some v => .ok (v.asList?.getD [])
  | none => if f.isRequired then .error (.missingRequired table f.name) else .ok []

variable {f table M}

/-- The items are those of the value. -/
theorem itemsIn_eq (isList : f.type.isList = true) (plain : f.default = none) :
    f.itemsIn table M = (fun v => v.asList?.getD []) <$> f.valueIn table M := by
  unfold itemsIn valueIn absent
  cases M f.id with
  | some v => rfl
  | none =>
      by_cases required : f.isRequired = true
      · simp only [if_pos required]
        rfl
      · simp only [if_neg required, effectiveDefault?, plain]
        cases type : f.type with
        | list => rfl
        | primitive | unbound | bound =>
            rw [type] at isList
            cases isList

end Field

namespace Record

variable {r : Record} {m : IdMap Value} {f : Field}

/-! ## The values of a record -/

/-- What the buffer gives. -/
def buffered (r : Record) : Except RecordError (IdMap Value) :=
  match r.buffer with
  | some b => r.codec.decodeAll b
  | none => .ok []

theorem values_eq_ok_iff : r.values = .ok m ↔ ∃ n, r.buffered = .ok n ∧
    m = IdMap.insertAll (n.filter fun e => !r.isCleared e.1) r.pending := by
  rw [values, bind_eq_ok_iff]
  unfold kept buffered
  cases r.buffer with
  | none =>
      constructor
      · rintro ⟨k, kept, eq⟩
        cases kept
        exact ⟨[], rfl, (pure_eq_ok_iff.mp eq).symm⟩
      · rintro ⟨n, none, rfl⟩
        cases none
        exact ⟨[], rfl, rfl⟩
  | some b =>
      simp only [bind_eq_ok_iff, pure_eq_ok_iff]
      constructor
      · rintro ⟨_, ⟨n, decoded, rfl⟩, rfl⟩
        exact ⟨n, decoded, rfl⟩
      · rintro ⟨n, decoded, rfl⟩
        exact ⟨_, ⟨n, decoded, rfl⟩, rfl⟩

/-- **The values of a record**: what is staged, over what the buffer has and is not cleared. -/
theorem exists_values (staged : IdMap.Sorted r.pending) {n : IdMap Value}
    (decoded : r.buffered = .ok n) : ∃ m, r.values = .ok m ∧ ∀ i, m.find? i =
      (IdMap.find? r.pending i).or (if r.isCleared i then none else n.find? i) := by
  refine ⟨_, values_eq_ok_iff.mpr ⟨n, decoded, rfl⟩, ?_⟩
  intro i
  rw [IdMap.find?_insertAll i staged.nodup, IdMap.find?_filter (fun i => !r.isCleared i)]
  cases r.isCleared i <;> rfl

theorem find?_values (staged : IdMap.Sorted r.pending) (read : r.values = .ok m) :
    ∃ n, r.buffered = .ok n ∧ ∀ i, m.find? i =
      (IdMap.find? r.pending i).or (if r.isCleared i then none else n.find? i) := by
  rcases values_eq_ok_iff.mp read with ⟨n, decoded, -⟩
  obtain ⟨m', again, value⟩ := exists_values staged decoded
  rw [read, Except.ok.injEq] at again
  subst again
  exact ⟨n, decoded, value⟩

theorem find?_of_staged (staged : IdMap.Sorted r.pending) (read : r.values = .ok m) {id : Int16}
    {v : Value} (pending : IdMap.find? r.pending id = some v) : m.find? id = some v := by
  obtain ⟨n, -, value⟩ := find?_values staged read
  rw [value, pending]
  rfl

/-- The number is in the buffer when the buffer gives a value for it. -/
theorem isBuffered_eq {n : IdMap Value} (decoded : r.buffered = .ok n) {id : Int16}
    (known : (r.codec.slot? id).isSome) : r.isBuffered id = (n.find? id).isSome := by
  rw [Bool.eq_iff_iff, IdMap.isSome_find?_iff]
  unfold buffered at decoded
  unfold isBuffered
  cases buffer : r.buffer with
  | none =>
      rw [buffer] at decoded
      cases decoded
      simp [IdMap.ids]
  | some b =>
      rw [buffer] at decoded
      rw [TableCodec.mem_ids_of_decodeAll decoded, ← RecordBuffer.contains_iff]
      simp [known]

/-! ## Readers -/

theorem lookup_eq (serves : r.codec.Serves) (hf : f ∈ r.table.fields) : r.lookup f = .ok f := by
  rw [lookup]
  have own : r.table.resolve? f = some f := serves.resolves f hf
  rw [own]

theorem storedValue_eq (covers : r.codec.Covers) (staged : IdMap.Sorted r.pending)
    (read : r.values = .ok m) (hf : f ∈ r.table.storedFields) :
    r.storedValue f = .ok (m.find? f.id) := by
  obtain ⟨n, decoded, value⟩ := find?_values staged read
  rw [storedValue, value]
  cases IdMap.find? r.pending f.id with
  | some v => rfl
  | none =>
      by_cases cleared : r.isCleared f.id = true
      · simp only [if_pos cleared]
        rfl
      · simp only [if_neg cleared, Option.none_or]
        unfold buffered at decoded
        cases buffer : r.buffer with
        | none =>
            rw [buffer] at decoded
            cases decoded
            rfl
        | some b =>
            rw [buffer] at decoded
            exact TableCodec.readField_eq covers decoded hf

theorem isSet_eq (serves : r.codec.Serves) (staged : IdMap.Sorted r.pending)
    (read : r.values = .ok m) (hf : f ∈ r.table.storedFields) :
    r.isSet f = (m.find? f.id).isSome := by
  obtain ⟨n, decoded, value⟩ := find?_values staged read
  obtain ⟨s, slot, -, -⟩ := serves.slot f hf
  have own : r.codec.table.resolve? f = some f := serves.resolves f (List.mem_filter.mp hf).1
  have pending : r.isStaged f.id = (IdMap.find? r.pending f.id).isSome := by
    rw [Bool.eq_iff_iff, isStaged, IdMap.contains_iff, IdMap.isSome_find?_iff]
  rw [isSet, own, value, pending, isBuffered_eq decoded (by rw [slot]; rfl)]
  cases IdMap.find? r.pending f.id <;> cases r.isCleared f.id <;> simp

/-- A stored field that the table finds is read without its default. -/
theorem tryGet_eq_storedValue (own : r.lookup f = .ok f) (hf : f ∈ r.table.storedFields) :
    r.tryGet f = r.storedValue f := by
  rw [tryGet, own, ok_bind, TableCodec.isDerived_of_mem_storedFields hf]
  rfl

theorem tryGet_eq (serves : r.codec.Serves) (staged : IdMap.Sorted r.pending)
    (read : r.values = .ok m) (hf : f ∈ r.table.storedFields) :
    r.tryGet f = .ok (m.find? f.id) := by
  rw [tryGet_eq_storedValue (lookup_eq serves (List.mem_filter.mp hf).1) hf]
  exact storedValue_eq serves.covers staged read hf

/-- A stored field is read with what stands for it when it is absent. -/
theorem get_eq_storedValue (serves : r.codec.Serves) (hf : f ∈ r.table.storedFields) :
    r.get f = r.storedValue f >>= fun o => o.elim (f.absent r.table.name) .ok := by
  have stored := TableCodec.isDerived_of_mem_storedFields hf
  rw [get_of_stored (lookup_eq serves (List.mem_filter.mp hf).1) stored, storedOrDefault]
  refine congrArg (r.storedValue f >>= ·) (funext fun o => ?_)
  cases o <;> rfl

theorem get_eq (serves : r.codec.Serves) (staged : IdMap.Sorted r.pending)
    (read : r.values = .ok m) (hf : f ∈ r.table.storedFields) :
    r.get f = f.valueIn r.table.name m.find? := by
  rw [get_eq_storedValue serves hf, storedValue_eq serves.covers staged read hf, ok_bind,
    Field.valueIn]
  cases m.find? f.id <;> rfl

/-- A derived field to which nothing is bound. -/
theorem get_of_derived (serves : r.codec.Serves) (unbound : r.derived = [])
    (hf : f ∈ r.table.fields) (derived : f.isDerived = true) :
    r.get f = .error (.derivedNotBound r.table.name f.name) := by
  have free : computation? f.name r.derived = none := by
    rw [unbound]
    rfl
  rw [get, readField, lookup_eq serves hf]
  simp only [derived, if_true, derive_of_none free, free]
  rfl

theorem exists_cause_of_storedValue (covers : r.codec.Covers) (hf : f ∈ r.table.storedFields)
    {e : RecordError} (failed : r.storedValue f = .error e) : ∃ cause, e = .codec cause := by
  unfold storedValue at failed
  split at failed
  · cases failed
  · split at failed
    · cases failed
    · split at failed
      · exact covers.exists_cause hf failed
      · cases failed

/-- A list that is not staged is read from the buffer, or not at all. -/
theorem bufferFor_cases (staged : IdMap.Sorted r.pending) (read : r.values = .ok m)
    (unstaged : IdMap.find? r.pending f.id = none) :
    (r.bufferFor f = none ∧ m.find? f.id = none) ∨
      ∃ b n, r.bufferFor f = some b ∧ r.codec.decodeAll b = .ok n ∧
        m.find? f.id = n.find? f.id := by
  obtain ⟨n, decoded, value⟩ := find?_values staged read
  have free : r.isStaged f.id = false := by
    rw [Bool.eq_false_iff, isStaged, Ne, IdMap.contains_iff]
    exact IdMap.find?_eq_none_iff.mp unstaged
  rw [bufferFor, free, value, unstaged, Bool.false_or, Option.none_or]
  by_cases cleared : r.isCleared f.id = true
  · exact .inl ⟨by rw [if_pos cleared], by rw [if_pos cleared]⟩
  · rw [if_neg cleared, if_neg cleared]
    unfold buffered at decoded
    cases buffer : r.buffer with
    | none =>
        rw [buffer] at decoded
        cases decoded
        exact .inl ⟨rfl, rfl⟩
    | some b =>
        rw [buffer] at decoded
        exact .inr ⟨b, n, rfl, decoded, rfl⟩

private theorem lookupList_eq (serves : r.codec.Serves) (hf : f ∈ r.table.storedFields)
    (isList : f.type.isList = true) : r.lookupList f = .ok f := by
  rw [lookupList, lookup_eq serves (List.mem_filter.mp hf).1]
  show (if f.type.isList = true then pure f else _) = _
  rw [if_pos isList]
  rfl

/-- What is made of the items that the field reads. -/
private theorem bind_get_eq (serves : r.codec.Serves) (staged : IdMap.Sorted r.pending)
    (read : r.values = .ok m) (hf : f ∈ r.table.storedFields) (isList : f.type.isList = true)
    {α : Type} (use : List Value → Except RecordError α) :
    (r.get f >>= fun v => use (v.asList?.getD [])) = f.itemsIn r.table.name m.find? >>= use := by
  have plain := serves.plain f (List.mem_filter.mp hf).1 isList
  rw [get_eq serves staged read hf, Field.itemsIn_eq isList plain]
  cases f.valueIn r.table.name m.find? <;> rfl

theorem listSize_eq (serves : r.codec.Serves) (staged : IdMap.Sorted r.pending)
    (read : r.values = .ok m) (hf : f ∈ r.table.storedFields) (isList : f.type.isList = true)
    (lists : ∀ v, m.find? f.id = some v → ∃ items, v = .list items) :
    r.listSize f = f.itemsIn r.table.name m.find? >>= fun items => .ok items.length := by
  have whole := bind_get_eq serves staged read hf isList fun items => .ok items.length
  rw [listSize, lookupList_eq serves hf isList]
  simp only [ok_bind]
  cases pending : IdMap.find? r.pending f.id with
  | some v =>
      have here := find?_of_staged staged read pending
      obtain ⟨items, rfl⟩ := lists v here
      simp only [stagedList?, pending, Option.bind_some, Value.asList?, Field.itemsIn, here]
      rfl
  | none =>
      simp only [stagedList?, pending, Option.bind_none]
      rcases bufferFor_cases staged read pending with ⟨idle, absent⟩ | ⟨b, n, used, decoded, value⟩
      · rw [idle]
        exact whole
      · simp only [used, TableCodec.listSize_eq serves decoded hf isList, ← value, ok_bind]
        cases here : m.find? f.id with
        | some v =>
            simp only [Field.itemsIn, here]
            rfl
        | none => exact whole

theorem listElement_eq (serves : r.codec.Serves) (staged : IdMap.Sorted r.pending)
    (read : r.values = .ok m) (hf : f ∈ r.table.storedFields) (isList : f.type.isList = true)
    (lists : ∀ v, m.find? f.id = some v → ∃ items, v = .list items) (index : Nat) :
    r.listElement f index = f.itemsIn r.table.name m.find? >>= fun items =>
      itemAt f items index := by
  have whole := bind_get_eq serves staged read hf isList fun items => itemAt f items index
  rw [listElement, lookupList_eq serves hf isList]
  simp only [ok_bind]
  cases pending : IdMap.find? r.pending f.id with
  | some v =>
      have here := find?_of_staged staged read pending
      obtain ⟨items, rfl⟩ := lists v here
      simp only [stagedList?, pending, Option.bind_some, Value.asList?, Field.itemsIn, here]
      rfl
  | none =>
      simp only [stagedList?, pending, Option.bind_none]
      rcases bufferFor_cases staged read pending with ⟨idle, absent⟩ | ⟨b, n, used, decoded, value⟩
      · rw [idle]
        exact whole
      · simp only [used, TableCodec.listElement_eq serves decoded hf isList, ← value]
        cases here : m.find? f.id with
        | some v =>
            simp only [Field.itemsIn, here, ok_bind]
            cases itemAt f (v.asList?.getD []) index <;> rfl
        | none => exact whole

end Record

end RecordFormat
