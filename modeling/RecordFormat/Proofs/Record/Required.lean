import RecordFormat.Proofs.Record.Agreement

/-!
# Required fields never go missing

A record is its buffer, the staged values and the cleared numbers. What may stand in the three
together is `Orderly`: no number is both staged and cleared, only optional fields of the buffer
are cleared, only what an operator accepts is staged, and every buffer has the required fields.
Each change keeps to this, and a change that fails does nothing. So once there is a buffer, no
reader or writer can fail for want of a required field (`Record.Arises.orderly_and_supplied`).
-/

namespace RecordFormat

open Outcome

/-! ## Failing for another reason -/

/-- The outcome is not a failure for want of a required field. -/
def RecordError.MissesNothing {α : Type} (x : Except RecordError α) : Prop :=
  ∀ table field, x ≠ .error (.missingRequired table field)

namespace RecordError.MissesNothing

variable {α β : Type}

theorem ok (a : α) : MissesNothing (.ok a) := fun _ _ => nofun

theorem throw {e : RecordError} (other : ∀ table field, e ≠ .missingRequired table field) :
    MissesNothing (.error e : Except RecordError α) := by
  intro table field h
  exact other table field (Except.error.inj h)

/-- Octets that cannot be read or written are another reason. -/
theorem lift (x : Except CodecError α) : MissesNothing (RecordError.lift x) := by
  intro table field h
  cases x with
  | ok a => cases h
  | error e => cases h

theorem bind {x : Except RecordError α} {f : α → Except RecordError β} (hx : MissesNothing x)
    (hf : ∀ a, x = .ok a → MissesNothing (f a)) : MissesNothing (x >>= f) := by
  intro table field h
  cases x with
  | ok a => exact hf a rfl table field h
  | error e =>
      cases h
      exact hx table field rfl

theorem map {x : Except RecordError α} (f : α → β) (hx : MissesNothing x) :
    MissesNothing (f <$> x) := by
  intro table field h
  cases x with
  | ok a => cases h
  | error e =>
      cases h
      exact hx table field rfl

theorem mapM {f : α → Except RecordError β} : ∀ {xs : List α},
    (∀ x ∈ xs, MissesNothing (f x)) → MissesNothing (xs.mapM f)
  | [], _ => by
      rw [List.mapM_nil]
      exact .ok []
  | x :: rest, each => by
      rw [List.mapM_cons]
      obtain ⟨here, later⟩ := List.forall_mem_cons.mp each
      exact here.bind fun y _ => (MissesNothing.mapM later).bind fun ys _ => .ok (y :: ys)

end RecordError.MissesNothing

open RecordError (MissesNothing)

namespace TableCodec

variable {c : TableCodec} {b : RecordBuffer} {m : IdMap Value}

theorem missesNothing_storedSlot (f : Field) : MissesNothing (c.storedSlot f) := by
  intro table field h
  unfold storedSlot at h
  split at h
  · cases h
  · split at h <;> cases h

theorem missesNothing_readField (f : Field) : MissesNothing (c.readField b f) := by
  refine (missesNothing_storedSlot f).bind fun s _ => ?_
  cases b.locate? f.id with
  | some offset => exact (MissesNothing.lift _).map some
  | none => exact .ok none

theorem missesNothing_decodeAll : MissesNothing (c.decodeAll b) :=
  .mapM fun _ _ => (MissesNothing.lift _).bind fun _ _ => .ok _

/-- What a map lacks is missed only where it is required. -/
theorem missesNothing_contents
    (present : ∀ s ∈ c.slots, s.field.isRequired = true → s.field.id ∈ m.ids) :
    MissesNothing (c.contents m) := by
  unfold contents
  split
  · exact .throw (by simp)
  · refine .bind (.mapM fun s hs => ?_) fun _ _ => .ok _
    unfold checkSlot
    split
    · split
      · exact .ok _
      · exact .throw (by simp)
    · next absent =>
      split
      · next required =>
        exact absurd (present s hs required) (IdMap.find?_eq_none_iff.mp absent)
      · exact .ok none

/-- What a codec writes has the required fields, whatever their values are. -/
theorem checkBuffer_of_encode {limit : Nat} (sound : c.Sound limit)
    (encoded : c.encode m = .ok b.bytes) : c.checkBuffer b = .ok () := by
  obtain ⟨admits, _, blocks, out⟩ := laidOut_of_encode sound encoded
  apply checkBuffer_eq_ok_iff.mpr
  intro f hf
  obtain ⟨s, hs, rfl⟩ := sound.required f hf
  have required := (List.mem_filter.mp (List.mem_filter.mp hf).1).2
  exact (out.mem_fieldIds admits).mpr (admits.required s hs required)

end TableCodec

namespace Record

variable {limit : Nat} {c : TableCodec} {r r' : Record} {f own : Field} {v : Value}

/-! ## How records arise -/

/-- What a change leaves: what it makes of the record, or the record if it fails. -/
def Edit.after (r : Record) (e : Edit) : Record :=
  match e.apply r with
  | .ok r' => r'
  | .error _ => r

/-- The records of a codec that are new or read from octets or a buffer, and what changes leave
of them. -/
inductive Arises (c : TableCodec) : Record → Prop
  | empty : Arises c (Record.empty c)
  | ofBytes {bytes : Bytes} {r : Record} : Record.ofBytes c bytes = .ok r → Arises c r
  | ofBuffer {b : RecordBuffer} {r : Record} : Record.ofBuffer c b = .ok r → Arises c r
  | change {r : Record} (e : Edit) : Arises c r → Arises c (e.after r)

/-! ## What stands in a record -/

/-- Staged values, cleared numbers and buffer go together. -/
structure Orderly (c : TableCodec) (r : Record) : Prop where
  codec : r.codec = c
  staged : IdMap.Sorted r.pending
  apart : ∀ id, ¬(r.isStaged id = true ∧ r.isCleared id = true)
  optional : ∀ id, r.isCleared id = true → r.isBuffered id = true ∧
    ∃ f ∈ c.table.storedFields, f.id = id ∧ f.isOptional = true
  accepted : ∀ id v, (id, v) ∈ r.pending → ∃ op, c.operator? id = some op ∧ op.accepts v = true
  complete : ∀ b, r.buffer = some b → c.checkBuffer b = .ok ()

/-- Without changes there is only the buffer to look at. -/
theorem orderly_of_clean (codec : r.codec = c) (pending : r.pending = []) (cleared : r.cleared = [])
    (complete : ∀ b, r.buffer = some b → c.checkBuffer b = .ok ()) : Orderly c r where
  codec := codec
  staged := by
    rw [pending]
    exact IdMap.sorted_nil
  apart id := by simp [isStaged, pending, IdMap.contains]
  optional id := by simp [isCleared, cleared]
  accepted id v mem := by
    rw [pending] at mem
    cases mem
  complete := complete

theorem isStaged_staging {id i : Int16} :
    (r.staging id v).isStaged i = true ↔ i = id ∨ r.isStaged i = true := by
  have pending : IdMap.find? (r.staging id v).pending i =
      if id = i then some v else IdMap.find? r.pending i := IdMap.find?_insert id v i r.pending
  simp only [isStaged, IdMap.contains_iff, ← IdMap.isSome_find?_iff, pending]
  by_cases same : id = i
  · simp [same]
  · simp [same, Ne.symm same]

theorem isCleared_staging {id i : Int16} :
    (r.staging id v).isCleared i = true ↔ i ≠ id ∧ r.isCleared i = true := by
  simp [isCleared, staging, and_comm]

theorem isStaged_removing {id i : Int16} :
    (r.removing id).isStaged i = true ↔ i ≠ id ∧ r.isStaged i = true := by
  have pending : IdMap.find? (r.removing id).pending i =
      if id = i then none else IdMap.find? r.pending i := IdMap.find?_erase id i r.pending
  simp only [isStaged, IdMap.contains_iff, ← IdMap.isSome_find?_iff, pending]
  by_cases same : id = i
  · simp [same]
  · simp [same, Ne.symm same]

theorem isCleared_removing {id i : Int16} : (r.removing id).isCleared i = true ↔
    (i = id ∧ r.isBuffered id = true) ∨ r.isCleared i = true := by
  simp only [isCleared, removing]
  by_cases buffered : r.isBuffered id = true <;> simp [buffered, mem_insertId]

theorem checkBuffer_of_toBytes {b : RecordBuffer} (sound : r.codec.Sound limit)
    (dirty : r.isDirty = true) (written : r.toBytes = .ok b.bytes) :
    r.codec.checkBuffer b = .ok () := by
  rcases toBytes_eq_ok_iff.mp written with ⟨-, -, clean, -⟩ | ⟨-, cs, contents, -⟩
  · rw [dirty] at clean
    cases clean
  · obtain ⟨m, read, -⟩ := bind_eq_ok_iff.mp contents
    rw [toBytes_eq_encode dirty read] at written
    exact TableCodec.checkBuffer_of_encode sound written

namespace Orderly

/-- A required field is never cleared: its number is its own. -/
theorem not_cleared (h : Orderly c r) (covers : c.Covers) (hf : f ∈ c.table.storedFields)
    (required : f.isRequired = true) : r.isCleared f.id = false := by
  rw [Bool.eq_false_iff]
  intro cleared
  obtain ⟨-, g, hg, same, optional⟩ := h.optional f.id cleared
  obtain ⟨s, slot, rfl⟩ := covers.slot f hf
  obtain ⟨t, slot', rfl⟩ := covers.slot g hg
  rw [same, slot] at slot'
  cases slot'
  simp only [Field.isRequired, Constraints.isRequired, decide_eq_true_eq] at required
  simp [Field.isOptional, Constraints.isOptional, required] at optional

theorem set (h : Orderly c r) (done : r.set f v = .ok r') : Orderly c r' := by
  obtain ⟨codec, staged, apart, optional, accepted, complete⟩ := h
  obtain ⟨own, op, -, -, known, accepts, rfl⟩ := set_eq_ok_iff.mp done
  refine ⟨codec, sorted_staging staged own.id, ?_, ?_, ?_, complete⟩
  · rintro id ⟨staged, cleared⟩
    obtain ⟨other, cleared⟩ := isCleared_staging.mp cleared
    exact apart id ⟨(isStaged_staging.mp staged).resolve_left other, cleared⟩
  · intro id cleared
    exact optional id (isCleared_staging.mp cleared).2
  · intro id w mem
    rcases IdMap.mem_insert mem with eq | mem
    · cases eq
      rw [← codec]
      exact ⟨op, known, accepts⟩
    · exact accepted id w mem

theorem clear (h : Orderly c r) (done : r.clear f = .ok r') : Orderly c r' := by
  obtain ⟨rfl, staged, apart, optional, accepted, complete⟩ := h
  obtain ⟨own, found, stored, free, rfl⟩ := clear_eq_ok_iff.mp done
  have mem : own ∈ r.codec.table.storedFields :=
    Table.mem_storedFields.mpr ⟨(Table.eq_of_resolve? found).1, stored⟩
  refine ⟨rfl, sorted_removing staged own.id, ?_, ?_, ?_, complete⟩
  · rintro id ⟨staged, cleared⟩
    obtain ⟨other, staged⟩ := isStaged_removing.mp staged
    rcases isCleared_removing.mp cleared with ⟨same, -⟩ | cleared
    · exact other same
    · exact apart id ⟨staged, cleared⟩
  · intro id cleared
    rcases isCleared_removing.mp cleared with ⟨rfl, buffered⟩ | cleared
    · refine ⟨buffered, own, mem, rfl, ?_⟩
      unfold Field.isRequired Constraints.isRequired at free
      unfold Field.isOptional Constraints.isOptional
      cases presence : own.constraints.presence with
      | required => simp [presence] at free
      | optional => rfl
    · exact optional id cleared
  · intro id w mem
    exact accepted id w (List.mem_filter.mp mem).1

theorem finish (h : Orderly c r) (sound : c.Sound limit) (done : r.finish = .ok r') :
    Orderly c r' := by
  rcases finish_cases done with rfl | ⟨dirty, b, written, -, rfl⟩
  · exact h
  · obtain ⟨rfl, -, -, -, -, -⟩ := h
    refine orderly_of_clean rfl rfl rfl fun b' buffer => ?_
    cases buffer
    exact checkBuffer_of_toBytes sound dirty written

/-- **One change** keeps to the order, whether it fails or not. -/
theorem after (h : Orderly c r) (sound : c.Sound limit) (e : Edit) : Orderly c (e.after r) := by
  unfold Edit.after
  cases done : e.apply r with
  | error fault => exact h
  | ok r' =>
      cases e with
      | set f v => exact h.set done
      | setName name v =>
          obtain ⟨own, -, done⟩ := bind_eq_ok_iff.mp done
          exact h.set done
      | clear f => exact h.clear done
      | finish => exact h.finish sound done

end Orderly

/-- **However a record arose**, its changes keep to the order. -/
theorem Arises.orderly (h : Arises c r) (sound : c.Sound limit) : Orderly c r := by
  induction h with
  | empty => exact orderly_of_clean rfl rfl rfl nofun
  | ofBytes read =>
      obtain ⟨b, -, -, complete, rfl⟩ := ofBytes_eq_ok_iff.mp read
      exact orderly_of_clean rfl rfl rfl fun b' buffer => by
        cases buffer
        exact complete
  | ofBuffer read =>
      obtain ⟨_, complete, eq⟩ := bind_eq_ok_iff.mp read
      obtain rfl := pure_eq_ok_iff.mp eq
      exact orderly_of_clean rfl rfl rfl fun b' buffer => by
        cases buffer
        exact complete
  | change e _ ih => exact ih.after sound e

/-! ## Nothing required is missing -/

/-- No reader and no writer fails for want of a required field. -/
structure Supplied (r : Record) : Prop where
  complete : r.isComplete = true
  get : ∀ f own, r.table.resolve? f = some own → own.isStored = true → MissesNothing (r.get f)
  byteLength : MissesNothing r.byteLength
  toBytes : MissesNothing r.toBytes
  finish : MissesNothing r.finish

theorem missesNothing_storedValue (f : Field) : MissesNothing (r.storedValue f) := by
  unfold storedValue
  split
  · exact .ok _
  · split
    · exact .ok none
    · split
      · exact TableCodec.missesNothing_readField f
      · exact .ok none

theorem missesNothing_values : MissesNothing r.values := by
  refine .bind ?_ fun _ _ => .ok _
  unfold kept
  split
  · exact TableCodec.missesNothing_decodeAll.bind fun _ _ => .ok _
  · exact .ok []

namespace Orderly

variable {b : RecordBuffer}

/-- A required field is in the buffer. -/
theorem mem_fieldIds (h : Orderly c r) (buffer : r.buffer = some b)
    (hf : f ∈ c.table.storedFields) (required : f.isRequired = true) : f.id ∈ b.fieldIds := by
  have checked := TableCodec.checkBuffer_eq_ok_iff.mp (h.complete b buffer)
  rw [Table.filter_isStored_requiredFields] at checked
  exact checked f (List.mem_filter.mpr ⟨hf, required⟩)

theorem isComplete (h : Orderly c r) (covers : c.Covers) (made : c.table.Made)
    (buffer : r.buffer = some b) : r.isComplete = true := by
  have codec := h.codec
  rw [Record.isComplete, codec, Table.filter_isStored_requiredFields, List.all_eq_true]
  intro f required
  obtain ⟨hf, required⟩ := List.mem_filter.mp required
  have mem := List.mem_of_mem_filter hf
  have buffered : r.isBuffered f.id = true := by
    rw [isBuffered, buffer]
    exact RecordBuffer.contains_iff.mpr (h.mem_fieldIds buffer hf required)
  rw [isSet, codec, made.resolve?_eq mem, h.not_cleared covers hf required, buffered]
  simp

/-- A required field has a value, if its octets can be read. -/
theorem storedValue_ne_none (h : Orderly c r) (covers : c.Covers) (buffer : r.buffer = some b)
    (hf : f ∈ c.table.storedFields) (required : f.isRequired = true) :
    r.storedValue f ≠ .ok none := by
  intro read
  unfold storedValue at read
  split at read
  · cases read
  · rw [h.not_cleared covers hf required, buffer] at read
    simp only [Bool.false_eq_true, if_false, h.codec] at read
    rw [TableCodec.readField_eq_none_iff covers hf, Bool.eq_false_iff, Ne,
      RecordBuffer.contains_iff] at read
    exact read (h.mem_fieldIds buffer hf required)

theorem missesNothing_get (h : Orderly c r) (covers : c.Covers) (buffer : r.buffer = some b)
    (found : r.table.resolve? f = some own) (stored : own.isStored = true) :
    MissesNothing (r.get f) := by
  have underived : own.isDerived = false := by
    simpa [Field.isStored, Field.isDerived] using stored
  have lookup : r.lookup f = .ok own := lookup_eq_ok_iff.mpr found
  have hf : own ∈ c.table.storedFields := by
    rw [← h.codec]
    exact List.mem_filter.mpr ⟨(Table.eq_of_resolve? found).1, stored⟩
  rw [get_of_stored lookup underived, storedOrDefault]
  refine (missesNothing_storedValue own).bind fun o read => ?_
  cases o with
  | some v => exact .ok v
  | none =>
    have free : ¬own.isRequired = true := fun required =>
      h.storedValue_ne_none covers buffer hf required read
    simp only [if_neg free]
    split
    · exact .ok _
    · exact .throw (by simp)

/-- Every required field is among the values. -/
theorem mem_ids_of_values (h : Orderly c r) (sound : c.Sound limit) (covers : c.Covers)
    (buffer : r.buffer = some b) {m : IdMap Value} (read : r.values = .ok m) {s : Slot}
    (hs : s ∈ c.slots) (required : s.field.isRequired = true) : s.field.id ∈ m.ids := by
  have slot := (TableCodec.slot?_eq_some_iff sound.distinct).mpr ⟨hs, rfl⟩
  have hf := covers.field _ s slot
  obtain ⟨n, decoded, value⟩ := find?_values h.staged read
  have known : (r.codec.slot? s.field.id).isSome := by
    rw [h.codec, slot]
    rfl
  have buffered : r.isBuffered s.field.id = true := by
    rw [isBuffered, buffer]
    exact RecordBuffer.contains_iff.mpr (h.mem_fieldIds buffer hf required)
  rw [isBuffered_eq decoded known] at buffered
  rw [← IdMap.isSome_find?_iff, value, h.not_cleared covers hf required, if_neg Bool.false_ne_true]
  simp [buffered]

theorem missesNothing_contents (h : Orderly c r) (sound : c.Sound limit) (covers : c.Covers)
    (buffer : r.buffer = some b) : MissesNothing r.contents := by
  refine missesNothing_values.bind fun m read => ?_
  rw [h.codec]
  exact TableCodec.missesNothing_contents fun s hs =>
    h.mem_ids_of_values sound covers buffer read hs

theorem missesNothing_byteLength (contents : MissesNothing r.contents) :
    MissesNothing r.byteLength := by
  rw [Record.byteLength]
  split
  · exact .ok _
  · split
    · exact .lift _
    · next fault failed =>
      intro table field h
      cases h
      exact contents table field failed

theorem missesNothing_toBytes (contents : MissesNothing r.contents) : MissesNothing r.toBytes := by
  rw [Record.toBytes]
  split
  · exact .ok _
  · split
    · exact .lift _
    · next fault failed =>
      intro table field h
      cases h
      exact contents table field failed

theorem missesNothing_finish (toBytes : MissesNothing r.toBytes) : MissesNothing r.finish := by
  unfold Record.finish
  split
  · exact .ok r
  · exact toBytes.bind fun _ _ => (MissesNothing.lift _).bind fun _ _ => .ok _

theorem supplied (h : Orderly c r) (sound : c.Sound limit) (covers : c.Covers)
    (made : c.table.Made) (buffer : r.buffer = some b) : Supplied r := by
  have contents := h.missesNothing_contents sound covers buffer
  exact
    { complete := h.isComplete covers made buffer
      get := fun f own found stored => h.missesNothing_get covers buffer found stored
      byteLength := missesNothing_byteLength contents
      toBytes := missesNothing_toBytes contents
      finish := missesNothing_finish (missesNothing_toBytes contents) }

end Orderly

/-- **Required fields never go missing.** Whatever octets a record was read from and whatever
changes were made or tried, staged values, cleared numbers and buffer go together; and with a
buffer, nothing fails for want of a required field. -/
theorem Arises.orderly_and_supplied {limits : Limits} {t : Table}
    (given : Registry.GivesCodec limits (fun _ => True) t c) (made : c.table.Made)
    (distinct : (c.table.storedFields.map Field.id).Nodup) (h : Arises c r) :
    Orderly c r ∧ ∀ b, r.buffer = some b → Supplied r := by
  have compiled := (given.compiled nestedIn_true).inside.here
  have sound := compiled.sound ⟨made.fields, distinct⟩
  have orderly := h.orderly sound
  exact ⟨orderly, fun b buffer => orderly.supplied sound (compiled.covers distinct) made buffer⟩

end Record

namespace Household

/-- The damaged person after failing to drop the age, dropping the names and a birthday. -/
def attempted : Record :=
  [.clear age, .clear names, .set age (.scalar (.int32 8))].foldl Record.Edit.after
    (Record.backed personCodec damaged)

theorem arises_attempted : Record.Arises personCodec attempted := by
  have complete : personCodec.checkBuffer damaged = .ok () :=
    TableCodec.checkBuffer_eq_ok_iff.mpr (by decide +kernel)
  have read : Record.ofBuffer personCodec damaged = .ok (Record.backed personCodec damaged) :=
    bind_eq_ok_iff.mpr ⟨(), complete, rfl⟩
  exact .change (.set age (.scalar (.int32 8))) (.change (.clear names) (.change (.clear age)
    (.ofBuffer read)))

/-- The names are cleared and the age is staged, over octets that still have both. -/
theorem orderly_attempted : Record.Arises personCodec attempted ∧
    attempted.buffer = some damaged ∧ attempted.cleared = [3] ∧ attempted.isStaged 2 = true ∧
      Record.Orderly personCodec attempted ∧ Record.Supplied attempted := by
  have buffer : attempted.buffer = some damaged := by decide +kernel
  obtain ⟨orderly, supplied⟩ := Record.Arises.orderly_and_supplied (givesCodec_person trivial)
    valid_person.toMade (by decide) arises_attempted
  exact ⟨arises_attempted, buffer, by decide +kernel, by decide +kernel, orderly,
    supplied damaged buffer⟩

end Household

end RecordFormat
