import RecordFormat.Proofs.Record.Edits
import RecordFormat.Proofs.Registry.RoundTrip

/-!
# A record is a partial map

Staged values, cleared numbers and a buffer that may or may not be there come down to one map
from numbers to values. Setting and clearing update it, finishing and whatever fails leave it
alone, and every reader answers from it (`Record.answers_of_edits`). The record's own values
are equal to those of the map; they need not be the same, for finishing reads records back.
-/

namespace RecordFormat

open Outcome
open Value (Equal EqualMaps Readable)

/-- Values by field number. -/
abbrev PartialMap := Int16 → Option Value

/-! ## Answers up to equality -/

/-- What a map has is equal to what the other one has. -/
def PartialMap.Same (M N : PartialMap) : Prop := ∀ i, Option.Rel Equal (M i) (N i)

theorem PartialMap.Same.symm {M N : PartialMap} (h : M.Same N) : N.Same M := by
  intro i
  have here := h i
  generalize M i = x at here ⊢
  generalize N i = y at here ⊢
  cases here with
  | none => exact .none
  | some equal => exact .some equal.symm

theorem PartialMap.Same.trans {K M N : PartialMap} (h : K.Same M) (h' : M.Same N) : K.Same N := by
  intro i
  have here := h i
  have there := h' i
  generalize K i = x at here ⊢
  generalize M i = y at here there
  generalize N i = z at there ⊢
  cases here with
  | none => exact there
  | some equal =>
      cases there with
      | some equal' => exact .some (equal.trans equal')

theorem PartialMap.Same.update {M N : PartialMap} (same : M.Same N) (id : Int16)
    {x y : Option Value} (here : Option.Rel Equal x y) :
    PartialMap.Same (Function.update M id x) (Function.update N id y) := by
  intro i
  by_cases eq : i = id
  · subst eq
    rwa [Function.update_self, Function.update_self]
  · rw [Function.update_of_ne eq, Function.update_of_ne eq]
    exact same i

namespace Field

variable {f : Field} {table : String} {M N : PartialMap}

theorem readable_of_effectiveDefault? {v : Value} (h : f.effectiveDefault? = some v) :
    Readable v := by
  unfold effectiveDefault? at h
  split at h <;> cases h
  · exact .scalar _
  · exact .scalar _
  · exact .list nofun

theorem valueIn_alike (same : M.Same N) : Alike Equal (f.valueIn table M) (f.valueIn table N) := by
  have here := same f.id
  unfold valueIn
  generalize M f.id = x at here
  generalize N f.id = y at here
  cases here with
  | some equal => exact .ok equal
  | none =>
      unfold absent
      by_cases required : f.isRequired = true
      · simp only [if_pos required]
        exact .error _
      · simp only [if_neg required]
        cases default : f.effectiveDefault? with
        | some v => exact .ok (.refl (readable_of_effectiveDefault? default))
        | none => exact .error _

theorem itemsIn_alike (same : M.Same N) :
    Alike (List.Forall₂ Equal) (f.itemsIn table M) (f.itemsIn table N) := by
  have here := same f.id
  unfold itemsIn
  generalize M f.id = x at here
  generalize N f.id = y at here
  cases here with
  | some equal =>
      cases equal with
      | scalar | group => exact .ok .nil
      | list length each => exact .ok (Value.Equal.list_iff.mp (.list length each))
  | none =>
      by_cases required : f.isRequired = true
      · simp only [if_pos required]
        exact .error _
      · simp only [if_neg required]
        exact .ok .nil

end Field

theorem Record.itemAt_alike {f : Field} {xs ys : List Value} (equal : List.Forall₂ Equal xs ys)
    (index : Nat) : Alike Equal (itemAt f xs index) (itemAt f ys index) := by
  unfold itemAt
  have length := equal.length_eq
  by_cases inside : index < xs.length
  · rw [List.getElem?_eq_getElem inside, List.getElem?_eq_getElem (length ▸ inside)]
    exact .ok (equal.get inside (length ▸ inside))
  · rw [List.getElem?_eq_none (by omega), List.getElem?_eq_none (by omega), length]
    exact .error _

namespace Record

/-- **Every reader answers as the map**: what is read for a number is equal to what the map has
there, and where it has nothing the answer is that for an absent field. -/
structure Answers (r : Record) (M : PartialMap) : Prop where
  values : ∃ m, r.values = .ok m ∧ IdMap.Sorted m ∧ M.Same m.find?
  isSet : ∀ f ∈ r.table.storedFields, r.isSet f = (M f.id).isSome
  tryGet : ∀ f ∈ r.table.storedFields, Alike (Option.Rel Equal) (.ok (M f.id)) (r.tryGet f)
  get : ∀ f ∈ r.table.storedFields, Alike Equal (f.valueIn r.table.name M) (r.get f)
  lists : ∀ f ∈ r.table.storedFields, f.type.isList = true → ∀ v, M f.id = some v →
    ∃ items, v = .list items
  listSize : ∀ f ∈ r.table.storedFields, f.type.isList = true →
    r.listSize f = do return (← f.itemsIn r.table.name M).length
  listElement : ∀ f ∈ r.table.storedFields, f.type.isList = true → ∀ index,
    Alike Equal (do itemAt f (← f.itemsIn r.table.name M) index) (r.listElement f index)

/-- What carries the answers through changes: the values are those of the map and fit the
codec, so that they are read back when they are written; the buffer is one of the codec. -/
structure Tracks (P : Record → Prop) (c : TableCodec) (r : Record) (M : PartialMap) : Prop where
  codec : r.codec = c
  staged : IdMap.Sorted r.pending
  owns : ∀ b, r.buffer = some b → c.Owns b
  values : ∃ m, r.values = .ok m ∧ c.HoldsAll P m ∧ M.Same m.find?

variable {P : Record → Prop} {c : TableCodec} {r r' : Record} {M : PartialMap} {f : Field}
  {v : Value}

theorem exists_list_of_holdsAll {m : IdMap Value} (serves : c.Serves) (fitting : c.HoldsAll P m)
    (hf : f ∈ c.table.storedFields) (isList : f.type.isList = true)
    (value : m.find? f.id = some v) : ∃ items, v = .list items := by
  obtain ⟨s, slot, rfl, type⟩ := serves.slot f hf
  obtain ⟨element, maxElements, op⟩ := TableCodec.exists_list_of_type type isList
  have holds := fitting _ _ _ value slot
  rw [op] at holds
  cases holds
  exact ⟨_, rfl⟩

theorem Tracks.answers (h : Tracks P c r M) (serves : c.Serves) : r.Answers M := by
  obtain ⟨rfl, staged, -, m, read, fitting, same⟩ := h
  have lists : ∀ f ∈ r.table.storedFields, f.type.isList = true →
      ∀ v, m.find? f.id = some v → ∃ items, v = .list items := fun f hf isList v =>
    exists_list_of_holdsAll serves fitting hf isList
  refine ⟨⟨m, read, sorted_of_values read, same⟩, ?_, ?_, ?_, ?_, ?_, ?_⟩
  · intro f hf
    rw [isSet_eq serves staged read hf]
    have here := same f.id
    generalize M f.id = x at here
    generalize m.find? f.id = y at here
    cases here <;> rfl
  · intro f hf
    rw [tryGet_eq serves staged read hf]
    exact .ok (same f.id)
  · intro f hf
    rw [get_eq serves staged read hf]
    exact Field.valueIn_alike same
  · intro f hf isList v value
    have here := same f.id
    rw [value] at here
    cases found : m.find? f.id with
    | none =>
        rw [found] at here
        cases here
    | some w =>
        obtain ⟨items, rfl⟩ := lists f hf isList w found
        rw [found] at here
        cases here with
        | some equal =>
            cases equal
            exact ⟨_, rfl⟩
  · intro f hf isList
    rw [listSize_eq serves staged read hf isList (lists f hf isList)]
    refine ((Field.itemsIn_alike same).bind fun xs ys equal => ?_).eq.symm
    exact .ok equal.length_eq
  · intro f hf isList index
    rw [listElement_eq serves staged read hf isList (lists f hf isList)]
    exact (Field.itemsIn_alike same).bind fun xs ys equal => itemAt_alike equal index

/-! ## Changes -/

/-- A change of a record. -/
inductive Edit where
  | set (f : Field) (v : Value)
  | setName (name : String) (v : Value)
  | clear (f : Field)
  | finish

end Record

/-- A group value where the operator has a group is a record of the group's own codec, and so is
every group value inside; all of them can be read. Values of other shapes are not restricted. -/
def Operator.Suits : Operator → Value → Prop
  | .group codec, .group r => (Operator.group codec).Holds (fun _ => True) (.group r)
  | .list element _, .list items => ∀ v ∈ items, element.Suits v
  | _, _ => True

theorem Operator.holds_of_suits : ∀ {op : Operator} {v : Value}, op.accepts v = true →
    op.Suits v → op.Holds (fun _ => True) v
  | .fixed kind limit, .scalar s, _, _ => .fixed kind limit s
  | .string, .scalar s, _, _ => .string s
  | .binary, .scalar s, _, _ => .binary s
  | .group _, .group _, _, suits => suits
  | .list element _, .list items, accepted, suits => by
      rw [accepts, Bool.and_eq_true, List.all_eq_true] at accepted
      exact .list fun v hv => holds_of_suits (accepted.2 v hv) (suits v hv)
  | .fixed .., .list _, accepted, _ | .fixed .., .group _, accepted, _
  | .string, .list _, accepted, _ | .string, .group _, accepted, _
  | .binary, .list _, accepted, _ | .binary, .group _, accepted, _
  | .group _, .scalar _, accepted, _ | .group _, .list _, accepted, _
  | .list .., .scalar _, accepted, _ | .list .., .group _, accepted, _ => by
      simp [accepts] at accepted

namespace Record

namespace Edit

/-- What the change makes of a record. -/
def apply (r : Record) : Edit → Except RecordError Record
  | .set f v => r.set f v
  | .setName name v => r.setName name v
  | .clear f => r.clear f
  | .finish => r.finish

/-- What the change makes of a map when it succeeds. -/
def effect (t : Table) (M : PartialMap) : Edit → PartialMap
  | .set f v => Function.update M f.id (some v)
  | .setName name v =>
    match t.fieldByName? name with
    | some f => Function.update M f.id (some v)
    | none => M
  | .clear f => Function.update M f.id none
  | .finish => M

/-- A record and a map after a change. A change that fails leaves both alone. -/
def step (s : Record × PartialMap) (e : Edit) : Record × PartialMap :=
  match e.apply s.1 with
  | .ok r => (r, e.effect s.1.table s.2)
  | .error _ => s

/-- The number and the value that the change sets. -/
def sets? (t : Table) : Edit → Option (Int16 × Value)
  | .set f v => some (f.id, v)
  | .setName name v => (t.fieldByName? name).map fun f => (f.id, v)
  | .clear _ | .finish => none

/-- What is set is related to the operator under its number, if there is one. -/
def Fits (Q : Operator → Value → Prop) (c : TableCodec) (e : Edit) : Prop :=
  ∀ id v op, e.sets? c.table = some (id, v) → c.operator? id = some op → Q op v

end Edit

/-! ## One change -/

namespace Tracks

theorem empty (c : TableCodec) : Tracks P c (Record.empty c) fun _ => none where
  codec := rfl
  staged := IdMap.sorted_nil
  owns := nofun
  values := ⟨[], rfl, nofun, fun _ => .none⟩

/-- A record over a buffer of the codec. -/
theorem backed {n : IdMap Value} {b : RecordBuffer} (decoded : c.decodeAll b = .ok n)
    (fitting : c.HoldsAll P n) (same : M.Same n.find?) (owns : c.Owns b) :
    Tracks P c (Record.backed c b) M where
  codec := rfl
  staged := IdMap.sorted_nil
  owns b' here := by
    cases here
    exact owns
  values := ⟨n, (values_backed c b).trans decoded, fitting, same⟩

theorem set (h : Tracks P c r M)
    (fits : ∀ op, c.operator? f.id = some op → op.accepts v = true → op.Holds P v)
    (done : r.set f v = .ok r') : Tracks P c r' (Function.update M f.id (some v)) := by
  obtain ⟨rfl, staged, owns, m, read, fitting, same⟩ := h
  rcases set_eq_ok_iff.mp done with ⟨own, op, found, -, known, accepted, rfl⟩
  have id := (Table.eq_of_resolve? found).2.2
  rw [id] at known ⊢
  have holds := fits op known accepted
  obtain ⟨m', read', value⟩ := values_staging (v := v) staged read f.id
  refine ⟨rfl, sorted_staging staged f.id, owns, m', read', ?_, ?_⟩
  · intro i w s found' slot
    rw [value] at found'
    by_cases here : i = f.id
    · subst here
      rw [Function.update_self] at found'
      cases found'
      rw [TableCodec.operator?, slot, Option.map_some, Option.some.injEq] at known
      rw [known]
      exact holds
    · rw [Function.update_of_ne here] at found'
      exact fitting i w s found' slot
  · rw [value]
    exact same.update f.id (.some (.refl holds.readable))

theorem clear (h : Tracks P c r M) (serves : c.Serves) (done : r.clear f = .ok r') :
    Tracks P c r' (Function.update M f.id none) := by
  obtain ⟨rfl, staged, owns, m, read, fitting, same⟩ := h
  obtain ⟨own, found, stored, -, rfl⟩ := clear_eq_ok_iff.mp done
  obtain ⟨mem, -, id⟩ := Table.eq_of_resolve? found
  obtain ⟨s, slot, -⟩ := serves.slot own (Table.mem_storedFields.mpr ⟨mem, stored⟩)
  rw [id] at slot ⊢
  have known : (r.codec.slot? f.id).isSome := by
    rw [slot]
    rfl
  obtain ⟨m', read', value⟩ := values_removing staged read known
  refine ⟨rfl, sorted_removing staged f.id, owns, m', read', ?_, ?_⟩
  · intro i w s found' slot
    rw [value] at found'
    by_cases here : i = f.id
    · subst here
      rw [Function.update_self] at found'
      cases found'
    · rw [Function.update_of_ne here] at found'
      exact fitting i w s found' slot
  · rw [value]
    exact same.update f.id .none

/-- What is written of a record reads as the same map through the record's codec. -/
theorem written (h : Tracks P c r M) (lasting : Lasting P)
    (sound : c.Everywhere (TableCodec.Sound c.limits.maxRecordSize)) {bytes : Bytes}
    (written : r.toBytes = .ok bytes) :
    ∃ b, b.bytes = bytes ∧ Tracks P c (Record.backed c b) M := by
  obtain ⟨rfl, staged, owns, m, read, fitting, same⟩ := h
  cases dirty : r.isDirty with
  | false =>
      rcases Option.isSome_iff_exists.mp (isDirty_eq_false_iff.mp dirty).1 with ⟨b, buffer⟩
      rw [toBytes_of_clean buffer dirty, Except.ok.injEq] at written
      rw [values_of_clean buffer dirty] at read
      exact ⟨b, written, .backed read fitting same (owns b buffer)⟩
  | true =>
      rw [toBytes_eq_encode dirty read] at written
      have small := TableCodec.size_of_encode written
      obtain ⟨b, n, rfl, restored⟩ :=
        TableCodec.restored_of_encode lasting sound fitting written small
      have admits := (TableCodec.encode_eq_ok_iff.mp written).1
      have equal := restored.equal admits (sorted_of_values read)
      exact ⟨b, rfl, .backed restored.decoded (restored.holdsAll admits) (same.trans equal.rel)
        (restored.owns admits sound.here small)⟩

theorem finish (h : Tracks P c r M) (lasting : Lasting P)
    (sound : c.Everywhere (TableCodec.Sound c.limits.maxRecordSize)) (done : r.finish = .ok r') :
    Tracks P c r' M := by
  rcases finish_cases done with rfl | ⟨-, b, written, -, rfl⟩
  · exact h
  · obtain ⟨b', octets, -, -, owns, n, read, rest⟩ := h.written lasting sound written
    obtain rfl : b' = b := RecordBuffer.eq_of_bytes octets
    obtain ⟨rfl, -, -, -⟩ := h
    rw [values_backed] at read
    exact ⟨rfl, IdMap.sorted_nil, owns, n, (values_of_clean rfl rfl).trans read, rest⟩

/-- Records that are followed by one map are equal. -/
theorem equal {P' : Record → Prop} (h : Tracks P c r M) (h' : Tracks P' c r' M) :
    Equal (.group r) (.group r') := by
  obtain ⟨codec, -, -, m, read, -, same⟩ := h
  obtain ⟨codec', -, -, n, read', -, same'⟩ := h'
  refine .of_maps (by rw [codec, codec']) read read' ?_
  exact (sorted_of_values read).agree (sorted_of_values read') (same.symm.trans same')

/-- **A change that succeeds** is followed. -/
theorem edited (h : Tracks P c r M) (serves : c.Serves) (lasting : Lasting P)
    (sound : c.Everywhere (TableCodec.Sound c.limits.maxRecordSize)) {e : Edit}
    (fits : e.Fits (fun op v => op.accepts v = true → op.Holds P v) c)
    (done : e.apply r = .ok r') : Tracks P c r' (e.effect r.table M) := by
  have table : r.table = c.table := congrArg TableCodec.table h.codec
  cases e with
  | set f v => exact h.set (fun op => fits f.id v op rfl) done
  | setName name v =>
      obtain ⟨own, found, done⟩ := bind_eq_ok_iff.mp done
      rw [lookupName_eq_ok_iff] at found
      have sets : (Edit.setName name v).sets? c.table = some (own.id, v) := by
        rw [Edit.sets?, ← table, found]
        rfl
      simp only [Edit.effect, found]
      exact h.set (fun op => fits own.id v op sets) done
  | clear f => exact h.clear serves done
  | finish => exact h.finish lasting sound done

/-- **One change** is followed, whether it fails or not. -/
theorem step (h : Tracks P c r M) (serves : c.Serves) (lasting : Lasting P)
    (sound : c.Everywhere (TableCodec.Sound c.limits.maxRecordSize)) {e : Edit}
    (fits : e.Fits (fun op v => op.accepts v = true → op.Holds P v) c) :
    Tracks P c (e.step (r, M)).1 (e.step (r, M)).2 := by
  unfold Edit.step
  cases done : e.apply r with
  -- A change that fails leaves the record and the map as they were.
  | error fault => exact h
  | ok r' => exact h.edited serves lasting sound fits done

/-- **Any number of changes** are followed. -/
theorem run (h : Tracks P c r M) (serves : c.Serves) (lasting : Lasting P)
    (sound : c.Everywhere (TableCodec.Sound c.limits.maxRecordSize)) (edits : List Edit)
    (fits : ∀ e ∈ edits, e.Fits (fun op v => op.accepts v = true → op.Holds P v) c) :
    Tracks P c (edits.foldl Edit.step (r, M)).1 (edits.foldl Edit.step (r, M)).2 := by
  -- Record and map move together, so both are general in the induction.
  induction edits generalizing r M with
  | nil => exact h
  | cons e rest ih =>
      have here := h.step serves lasting sound (fits e (List.mem_cons_self ..))
      exact ih here fun e' he' => fits e' (List.mem_cons_of_mem _ he')

end Tracks

end Record

/-! ## Records of compiled codecs -/

/-- The compiled form of a valid table serves it. -/
theorem TableCodec.Compiled.serves {limits : Limits} {T : Table → Prop} {c : TableCodec}
    (h : c.Compiled limits T) (valid : c.table.Valid) : c.Serves where
  resolves f hf := valid.resolve?_eq hf
  stored s hs := h.field_mem hs
  slot f hf := by
    obtain ⟨s, hs, rfl⟩ := h.exists_slot hf
    have slot := (slot?_eq_some_iff (h.sound valid.numbered).distinct).mpr ⟨hs, rfl⟩
    exact ⟨s, slot, rfl, congrArg OperatorKey.type (h.types s hs)⟩
  plain f hf isList := by
    apply valid.default_eq_none hf
    cases type : f.type with
    | list => rfl
    | primitive | unbound | bound =>
        rw [type] at isList
        cases isList

namespace Record

/-- A new record, or one that reads octets which its codec made of a map. -/
inductive Begins (c : TableCodec) : Record → PartialMap → Prop
  | empty : Begins c (Record.empty c) fun _ => none
  | encoded {m : IdMap Value} {bytes : Bytes} {r : Record} : IdMap.Sorted m →
      c.HoldsAll (fun _ => True) m → c.encode m = .ok bytes → Record.ofBytes c bytes = .ok r →
      Begins c r m.find?

section

variable {limits : Limits} {t : Table} {c : TableCodec} {r : Record} {M : PartialMap}

theorem ofBytes_eq_ok_iff {bytes : Bytes} : Record.ofBytes c bytes = .ok r ↔
    ∃ b, b.bytes = bytes ∧ bytes.size ≤ c.limits.maxRecordSize ∧ c.checkBuffer b = .ok () ∧
      r = Record.backed c b := by
  rw [ofBytes, bind_eq_ok_iff]
  simp only [RecordError.lift, mapError_eq_ok_iff, RecordBuffer.ofBytes_eq_ok_iff, ofBuffer,
    bind_eq_ok_iff, pure_eq_ok_iff]
  constructor
  · rintro ⟨b, ⟨small, octets⟩, _, complete, rfl⟩
    exact ⟨b, octets, small, complete, rfl⟩
  · rintro ⟨b, octets, small, complete, rfl⟩
    exact ⟨b, ⟨small, octets⟩, (), complete, rfl⟩

theorem Begins.tracks (h : Begins c r M)
    (sound : c.Everywhere (TableCodec.Sound c.limits.maxRecordSize)) :
    Tracks (fun _ => True) c r M := by
  cases h with
  | empty => exact .empty c
  | encoded sorted fitting encoded read =>
      obtain ⟨b, octets, small, -, rfl⟩ := ofBytes_eq_ok_iff.mp read
      obtain ⟨b', n, octets', restored⟩ :=
        TableCodec.restored_of_encode lasting_true sound fitting encoded small
      -- The octets determine the buffer, so the record reads the one that was made.
      obtain rfl : b' = b := RecordBuffer.eq_of_bytes (octets'.trans octets.symm)
      have admits := (TableCodec.encode_eq_ok_iff.mp encoded).1
      have owns := restored.owns admits sound.here (by rwa [RecordBuffer.size, octets])
      exact .backed restored.decoded (restored.holdsAll admits)
        (restored.equal admits sorted).rel owns

/-- Octets that a codec made can be read as a record. -/
theorem exists_begins {m : IdMap Value} {bytes : Bytes}
    (sound : c.Everywhere (TableCodec.Sound c.limits.maxRecordSize)) (sorted : IdMap.Sorted m)
    (fitting : c.HoldsAll (fun _ => True) m) (encoded : c.encode m = .ok bytes) :
    ∃ r, Record.ofBytes c bytes = .ok r ∧ Begins c r m.find? := by
  have small := TableCodec.size_of_encode encoded
  obtain ⟨b, n, octets, restored⟩ :=
    TableCodec.restored_of_encode lasting_true sound fitting encoded small
  have complete := restored.checkBuffer (TableCodec.encode_eq_ok_iff.mp encoded).1 sound.here
  have read := ofBytes_eq_ok_iff.mpr ⟨b, octets, small, complete, rfl⟩
  exact ⟨_, read, .encoded sorted fitting encoded read⟩

/-- **A record is a partial map.** However it began and whatever is done to it, every reader
answers from the map that the successful changes leave. -/
theorem answers_of_edits (given : Registry.GivesCodec limits (fun _ => True) t c)
    (valid : c.Everywhere fun d => d.table.Valid) (begins : Begins c r M) (edits : List Edit)
    (suits : ∀ e ∈ edits, e.Fits Operator.Suits c) :
    (edits.foldl Edit.step (r, M)).1.Answers (edits.foldl Edit.step (r, M)).2 := by
  have compiled := given.compiled nestedIn_true
  have sound := compiled.sound (valid.imp fun _ valid => valid.numbered)
  rw [← compiled.inside.here.limits_eq] at sound
  have serves := compiled.inside.here.serves valid.here
  have fits : ∀ e ∈ edits, e.Fits (fun op v => op.accepts v = true →
      op.Holds (fun _ => True) v) c := by
    intro e he id v op sets known accepted
    exact Operator.holds_of_suits accepted (suits e he id v op sets known)
  exact ((begins.tracks sound).run serves lasting_true sound edits fits).answers serves

end

end Record

namespace Household

theorem valid_address : address.Valid where
  fields := numbered_address.made
  table := rfl
  checked := rfl

theorem valid_person : person.Valid where
  fields := numbered_person.made
  table := rfl
  checked := rfl

/-- Moving house, then dropping the names and failing to drop the home. -/
def changes : List Record.Edit :=
  [.setName "home" (.group place), .clear names, .clear home, .finish,
    .set age (.scalar (.int32 8))]

/-- A person that was read answers as the map of values, changed likewise. -/
theorem answers_of_changes : ∃ r, Record.Begins personCodec r values.find? ∧
    (changes.foldl Record.Edit.step (r, values.find?)).1.Answers
      (changes.foldl Record.Edit.step (r, values.find?)).2 := by
  obtain ⟨bytes, encoded⟩ := encode_values
  have sound := ((givesCodec_person trivial).compiled nestedIn_true).sound
    (everywhere_person numbered_person numbered_address)
  obtain ⟨r, -, begins⟩ := Record.exists_begins sound sorted_values holdsAll_values encoded
  refine ⟨r, begins, Record.answers_of_edits (givesCodec_person trivial)
    (everywhere_person valid_person valid_address) begins changes ?_⟩
  intro e he id v op sets known
  simp only [changes, List.mem_cons, List.not_mem_nil, or_false] at he
  rcases he with rfl | rfl | rfl | rfl | rfl <;> cases sets <;> cases known
  · exact holds_place
  · trivial

end Household

end RecordFormat
