import RecordFormat.Record.Encoding

/-!
# Using a record

Reading answers from staged changes first and from the buffer otherwise, then from the
field's default; derived fields run the computation bound to them, which may read other fields
in turn. Writing stages a change, and `finish` turns all of them into a new buffer. A change that
fails leaves the record as it was.
-/

namespace RecordFormat

open Outcome

namespace Record

variable (r : Record)

def table : Table := r.codec.table

private def unknown (name : String) : RecordError := .unknownField r.table.name name

/-- The table's own definition of a field. -/
def lookup (f : Field) : Except RecordError Field :=
  match r.table.resolve? f with
  | some own => .ok own
  | none => .error (r.unknown f.name)

/-- The table's field of a name. -/
def lookupName (name : String) : Except RecordError Field :=
  match r.table.fieldByName? name with
  | some own => .ok own
  | none => .error (r.unknown name)

/-! ## Reading -/

/-- The value of a field, without defaults. -/
def storedValue (f : Field) : Except RecordError (Option Value) :=
  match IdMap.find? r.pending f.id with
  | some v => .ok (some v)
  | none =>
    if r.isCleared f.id then .ok none
    else match r.buffer with
      | some b => r.codec.readField b f
      | none => .ok none

/-- The value of a stored field, or its default. -/
def storedOrDefault (f : Field) : Except RecordError Value := do
  match ← r.storedValue f with
  | some v => return v
  | none =>
    if f.isRequired then throw (.missingRequired r.table.name f.name)
    else match f.effectiveDefault? with
      | some v => return v
      | none => throw (.noValue r.table.name f.name)

/-- The value of a field, where `compute` gives those of derived fields by their names. -/
def readField (compute : String → Option (Except RecordError Value)) (f : Field) :
    Option (Except RecordError Value) :=
  match r.lookup f with
  | .ok own => if own.isDerived then compute own.name else some (r.storedOrDefault own)
  | .error e => some (.error e)

/-- The value of the field of a name. -/
def readName (compute : String → Option (Except RecordError Value)) (name : String) :
    Option (Except RecordError Value) :=
  match r.lookupName name with
  | .ok own => r.readField compute own
  | .error e => some (.error e)

/-- The computation of the derived field of a name. -/
def computation? (name : String) (bound : List (String × Derivation)) : Option Derivation :=
  (bound.find? fun e => e.1 = name).map Prod.snd

/-- The computations of the other derived fields. -/
def without (name : String) (bound : List (String × Derivation)) : List (String × Derivation) :=
  bound.filter fun e => e.1 ≠ name

theorem mem_of_computation? {bound : List (String × Derivation)} {name : String} {d : Derivation}
    (h : computation? name bound = some d) : (name, d) ∈ bound := by
  obtain ⟨e, found, rfl⟩ := Option.map_eq_some_iff.1 h
  have named : e.1 = name := by simpa using List.find?_some found
  exact named ▸ List.mem_of_find?_eq_some found

theorem length_without_lt {bound : List (String × Derivation)} {name : String} {d : Derivation}
    (h : computation? name bound = some d) : (without name bound).length < bound.length :=
  List.length_filter_lt_length_iff_exists.2 ⟨(name, d), mem_of_computation? h, by simp⟩

/-- The value of the derived field of a name, or nothing when its computation never ends. Only the
computations in `idle` can be used; the others are running already, and wait for this one. -/
def derive (idle : List (String × Derivation)) (name : String) :
    Option (Except RecordError Value) :=
  match _h : computation? name idle with
  | some d => d.run r fun field => r.readName (fun other => derive (without name idle) other) field
  | none =>
    if (computation? name r.derived).isSome then none
    else some (.error (.derivedNotBound r.table.name name))
termination_by idle.length
decreasing_by exact length_without_lt _h

variable {r} in
theorem derive_of_some {idle : List (String × Derivation)} {name : String} {d : Derivation}
    (h : computation? name idle = some d) :
    r.derive idle name = d.run r (r.readName (r.derive (without name idle))) := by
  rw [derive]
  split
  · next d' found =>
    obtain rfl : d = d' := Option.some.inj (h.symm.trans found)
    rfl
  · next none => cases h.symm.trans none

variable {r} in
theorem derive_of_none {idle : List (String × Derivation)} {name : String}
    (h : computation? name idle = none) : r.derive idle name =
      if (computation? name r.derived).isSome then none
      else some (.error (.derivedNotBound r.table.name name)) := by
  rw [derive]
  split
  · next found => cases h.symm.trans found
  · rfl

/-- The value of a field. -/
def get (f : Field) : Except RecordError Value :=
  (r.readField (r.derive r.derived) f).getD (.error (.endless r.table.name f.name))

variable {r} in
theorem get_of_stored {f own : Field} (known : r.lookup f = .ok own)
    (stored : own.isDerived = false) : r.get f = r.storedOrDefault own := by
  simp only [get, readField, known, stored, Bool.false_eq_true, if_false, Option.getD_some]

variable {r} in
theorem get_of_unknown {f : Field} {e : RecordError} (unknown : r.lookup f = .error e) :
    r.get f = .error e := by
  simp only [get, readField, unknown, Option.getD_some]

/-- The value of the field of a name. -/
def getName (name : String) : Except RecordError Value :=
  (r.readName (r.derive r.derived) name).getD (.error (.endless r.table.name name))

/-- The value of a stored field, without defaults; derived fields have none. -/
def tryGet (f : Field) : Except RecordError (Option Value) := do
  let own ← r.lookup f
  if own.isDerived then return none else r.storedValue own

/-- A list field of the table. -/
def lookupList (f : Field) : Except RecordError Field := do
  let own ← r.lookup f
  if own.type.isList then return own else throw (.notACollection r.table.name own.name)

/-- The buffer, if nothing is staged for the field. -/
def bufferFor (f : Field) : Option RecordBuffer :=
  if r.isStaged f.id || r.isCleared f.id then none else r.buffer

/-- The staged items of a list field. -/
def stagedList? (f : Field) : Option (List Value) :=
  (IdMap.find? r.pending f.id).bind Value.asList?

/-- The item at a position, which must be in the list. -/
def itemAt (f : Field) (items : List Value) (index : Nat) : Except RecordError Value :=
  match items[index]? with
  | some v => .ok v
  | none => .error (.indexOutOfRange f.name index items.length)

/-- The element count of a list field; elements in the buffer are not read. -/
def listSize (f : Field) : Except RecordError Nat := do
  let own ← r.lookupList f
  match r.stagedList? own with
  | some items => return items.length
  | none =>
    let buffered ← match r.bufferFor own with
      | some b => r.codec.listSize b own
      | none => pure none
    match buffered with
    | some n => return n
    | none => return ((← r.get own).asList?.getD []).length

/-- One element of a list field; other elements in the buffer are not read. -/
def listElement (f : Field) (index : Nat) : Except RecordError Value := do
  let own ← r.lookupList f
  match r.stagedList? own with
  | some items => itemAt own items index
  | none =>
    let buffered ← match r.bufferFor own with
      | some b => r.codec.listElement b own index
      | none => pure none
    match buffered with
    | some v => return v
    | none => itemAt own ((← r.get own).asList?.getD []) index

/-! ## Writing -/

/-- Stages a value for a stored field. -/
def set (f : Field) (v : Value) : Except RecordError Record := do
  let own ← r.lookup f
  refuseIf own.isDerived (.derivedNotWritable r.table.name own.name)
  match r.codec.operator? own.id with
  | none => throw (r.unknown own.name)
  | some op =>
    refuseIf (!op.accepts v) (.valueRejected r.table.name own.name own.type.text v.typeName)
    return { r with
      pending := IdMap.insert own.id v r.pending
      cleared := r.cleared.filter (· ≠ own.id) }

/-- Stages a value for the field of a name. -/
def setName (name : String) (v : Value) : Except RecordError Record := do
  r.set (← r.lookupName name) v

/-- Adds a number to an ascending list of numbers. -/
def insertId (id : Int16) : List Int16 → List Int16
  | [] => [id]
  | i :: rest =>
    if id < i then id :: i :: rest
    else if id = i then i :: rest
    else i :: insertId id rest

/-- Stages the removal of an optional field's value. -/
def clear (f : Field) : Except RecordError Record := do
  let own ← r.lookup f
  refuseIf own.isDerived (.derivedNotWritable r.table.name own.name)
  refuseIf own.isRequired (.notOptional r.table.name own.name)
  return { r with
    pending := IdMap.erase own.id r.pending
    cleared := if r.isBuffered own.id then insertId own.id r.cleared else r.cleared }

/-- Makes a buffer of the record with all staged changes. -/
def finish : Except RecordError Record :=
  match r.buffer, r.isDirty with
  | some _, false => .ok r
  | _, _ => do
    let b ← RecordError.lift (RecordBuffer.ofBytes (← r.toBytes) r.codec.limits.maxRecordSize)
    return { r with buffer := some b, pending := [], cleared := [] }

/-- Binds a computation to a derived field, in place of an earlier one. -/
def bind (f : Field) (d : Derivation) : Except RecordError Record := do
  let own ← r.lookup f
  refuseIf (!own.isDerived) (.notDerived r.table.name own.name)
  return { r with derived := (own.name, d) :: without own.name r.derived }

end Record

/-! ## Depth of what is read -/

namespace Record

private theorem depth_of_storedValue {r : Record} {f : Field} {v : Value}
    (h : r.storedValue f = .ok (some v)) : v.depth < r.depth := by
  unfold storedValue at h
  split at h
  · next hv =>
    cases h
    exact depth_pending_lt (IdMap.mem_of_find? hv)
  · split at h
    · cases h
    · split at h
      · have := TableCodec.depth_of_readField h
        have := r.depth_eq
        omega
      · cases h

private theorem depth_of_storedOrDefault {r : Record} {f : Field} {v : Value}
    (h : r.storedOrDefault f = .ok v) : v.depth < r.depth := by
  obtain ⟨o, ho, h⟩ := bind_eq_ok_iff.1 h
  split at h
  · cases h
    exact depth_of_storedValue ho
  · split at h
    · cases h
    · split at h
      · next hd =>
        cases h
        have small : v.depth ≤ 1 := by
          unfold Field.effectiveDefault? at hd
          split at hd <;> cases hd <;> simp [Value.depth, depthOfItems]
        have := r.depth_eq
        omega
      · cases h

private theorem depth_of_readField {r : Record}
    {compute : String → Option (Except RecordError Value)} {f : Field} {v : Value}
    (computed : ∀ name w, compute name = some (.ok w) → w.depth < r.depth)
    (h : r.readField compute f = some (.ok v)) : v.depth < r.depth := by
  unfold readField at h
  split at h
  · split at h
    · exact computed _ v h
    · exact depth_of_storedOrDefault (Option.some.inj h)
  · cases h

/-- What is computed is less deep than the record, like everything else that is read from it. -/
theorem depth_of_derive {r : Record} {idle : List (String × Derivation)} {name : String}
    {v : Value} (sub : ∀ e ∈ idle, e ∈ r.derived) (h : r.derive idle name = some (.ok v)) :
    v.depth < r.depth := by
  cases found : computation? name idle with
  | none =>
    rw [derive_of_none found] at h
    split at h <;> cases h
  | some d =>
    rw [derive_of_some found] at h
    have shorter := length_without_lt found
    have others : ∀ e ∈ without name idle, e ∈ r.derived :=
      fun e he => sub e (List.mem_filter.1 he).1
    cases d with
    | const w =>
      cases h
      exact depth_derived_lt (sub _ (mem_of_computation? found))
    | compute program =>
      refine Program.depth_of_run r.depth_pos (fun field w told => ?_) h
      unfold readName at told
      split at told
      · exact depth_of_readField (fun _ _ => depth_of_derive others) told
      · cases told
termination_by idle.length
decreasing_by exact shorter

theorem depth_of_get {r : Record} {f : Field} {v : Value} (h : r.get f = .ok v) :
    v.depth < r.depth := by
  unfold get at h
  cases read : r.readField (r.derive r.derived) f with
  | none =>
    rw [read] at h
    cases h
  | some told =>
    rw [read] at h
    obtain rfl : told = .ok v := h
    exact depth_of_readField (fun _ _ => depth_of_derive fun _ he => he) read

end Record

end RecordFormat
