import RecordFormat.Proofs.Codec.Nesting
import RecordFormat.Proofs.Codec.Writing
import RecordFormat.Proofs.Schema.Tables
import RecordFormat.Wire.Registry

/-!
# Codecs that do the same

Two tables with one name and version are the same when their fields are, groups taken by name;
they match when their stored fields also refer to the same versions of tables. Operators are
twins when they are built the same way over tables that match at every depth. Twins accept and
write the same values, fail in the same way, and read twins of records from the same octets:
nothing that they do looks at what tells the tables apart.
-/

namespace RecordFormat

open Outcome

/-! ## Fields and tables -/

/-- The same field, referring to the same version of a table. -/
def Field.Matches (f g : Field) : Prop :=
  f = g ∨ f.same g = true ∧ f.type.operatorKey = g.type.operatorKey

/-- The types of the stored fields, each with the version of the table that it refers to. -/
def Table.references (t : Table) : List OperatorKey :=
  t.storedFields.map fun f => f.type.operatorKey

/-- The same table, of stored fields that refer to the same versions of tables. -/
def Table.Matches (t u : Table) : Prop :=
  t = u ∨ t.same u = true ∧ t.references = u.references

namespace Field

variable {f g : Field}

/-- What fields that are the same have in common. -/
theorem eq_of_same (h : f.same g = true) :
    f.id = g.id ∧ f.name = g.name ∧ f.constraints = g.constraints := by
  simp only [same, Bool.and_eq_true, decide_eq_true_eq] at h
  obtain ⟨⟨⟨⟨id, name⟩, -⟩, constraints⟩, -⟩ := h
  exact ⟨id, name, constraints⟩

namespace Matches

theorem id (h : f.Matches g) : f.id = g.id := by
  rcases h with rfl | ⟨same, -⟩
  · rfl
  · exact (eq_of_same same).1

theorem name (h : f.Matches g) : f.name = g.name := by
  rcases h with rfl | ⟨same, -⟩
  · rfl
  · exact (eq_of_same same).2.1

theorem constraints (h : f.Matches g) : f.constraints = g.constraints := by
  rcases h with rfl | ⟨same, -⟩
  · rfl
  · exact (eq_of_same same).2.2

theorem key (h : f.Matches g) : f.type.operatorKey = g.type.operatorKey := by
  rcases h with rfl | ⟨-, key⟩
  · rfl
  · exact key

theorem isRequired (h : f.Matches g) : f.isRequired = g.isRequired := by
  rw [Field.isRequired, Field.isRequired, h.constraints]

theorem text (h : f.Matches g) : f.type.text = g.type.text := by
  have detached := congrArg OperatorKey.type h.key
  rw [← FieldType.text_detach, ← FieldType.text_detach g.type]
  exact congrArg FieldType.text detached

end Matches

end Field

namespace Table

variable {t u : Table}

theorem eq_of_same (h : t.same u = true) : t.name = u.name ∧ t.version = u.version ∧
    List.Forall₂ (fun f g => f.same g = true) t.fields u.fields := by
  simp only [same, Bool.and_eq_true, decide_eq_true_eq, List.all_eq_true] at h
  obtain ⟨⟨⟨name, version⟩, length⟩, each⟩ := h
  exact ⟨name, version, List.forall₂_iff_zip.mpr ⟨length, fun mem => each _ mem⟩⟩

namespace Matches

theorem name (h : t.Matches u) : t.name = u.name := by
  rcases h with rfl | ⟨same, -⟩
  · rfl
  · exact (eq_of_same same).1

theorem version (h : t.Matches u) : t.version = u.version := by
  rcases h with rfl | ⟨same, -⟩
  · rfl
  · exact (eq_of_same same).2.1

theorem references (h : t.Matches u) : t.references = u.references := by
  rcases h with rfl | ⟨-, references⟩
  · rfl
  · exact references

theorem storedFields (h : t.Matches u) :
    List.Forall₂ Field.Matches t.storedFields u.storedFields := by
  rcases h with rfl | ⟨same, references⟩
  · exact List.forall₂_same.mpr fun f _ => .inl rfl
  · have fields := (eq_of_same same).2.2
    have stored : List.Forall₂ (fun f g => f.same g = true) t.storedFields u.storedFields := by
      apply List.rel_filter _ fields
      intro f g same
      show f.isStored = true ↔ g.isStored = true
      unfold Field.isStored
      rw [(Field.eq_of_same same).2.2]
    have keys : List.Forall₂ (fun f g => f.type.operatorKey = g.type.operatorKey) t.storedFields
        u.storedFields := by
      rw [Table.references, Table.references, ← List.forall₂_eq_eq_eq, List.forall₂_map_left_iff,
        List.forall₂_map_right_iff] at references
      exact references
    exact stored.mp (fun _ _ same key => .inr ⟨same, key⟩) keys

theorem requiredFields (h : t.Matches u) : List.Forall₂ Field.Matches
    (t.requiredFields.filter Field.isStored) (u.requiredFields.filter Field.isStored) := by
  rw [Table.filter_isStored_requiredFields, Table.filter_isStored_requiredFields]
  apply List.rel_filter _ h.storedFields
  intro f g matched
  show f.isRequired = true ↔ g.isRequired = true
  rw [matched.isRequired]

end Matches

end Table

/-- Lists that are related pointwise by what they are sorted by stay so when they are sorted. -/
theorem forall₂_mergeSort {α β : Type} {R : α → β → Prop} {p : α → α → Bool} {q : β → β → Bool}
    {xs : List α} {ys : List β} (h : List.Forall₂ R xs ys)
    (same : ∀ x x' y y', R x y → R x' y' → p x x' = q y y') :
    List.Forall₂ R (xs.mergeSort p) (ys.mergeSort q) := by
  have related : ∀ e ∈ xs.zip ys, R e.1 e.2 := fun e he => (List.forall₂_iff_zip.mp h).2 he
  -- Both lists are sorted as the list of their pairs is.
  let order (e e' : α × β) : Bool := p e.1 e'.1
  have left : ((xs.zip ys).mergeSort order).map Prod.fst = xs.mergeSort p := by
    rw [List.map_mergeSort (s := p) fun _ _ _ _ => rfl, List.map_fst_zip (Nat.le_of_eq h.length_eq)]
  have right : ((xs.zip ys).mergeSort order).map Prod.snd = ys.mergeSort q := by
    rw [List.map_mergeSort (s := q) fun e he e' he' =>
        same _ _ _ _ (related e he) (related e' he'),
      List.map_snd_zip (Nat.le_of_eq h.length_eq.symm)]
  rw [← left, ← right, List.forall₂_map_left_iff, List.forall₂_map_right_iff, List.forall₂_same]
  exact fun e he => related e (List.mem_mergeSort.mp he)

theorem Table.Matches.layoutFields {t u : Table} (h : t.Matches u) :
    List.Forall₂ Field.Matches t.layoutFields u.layoutFields :=
  forall₂_mergeSort h.storedFields fun f f' g g' matched matched' => by
    rw [matched.id, matched'.id]

/-! ## Operators -/

/-- Built the same way, over tables that match at every depth. -/
inductive Operator.Twin : Operator → Operator → Prop
  | fixed (kind : FixedKind) (limit : Binary64) : Twin (.fixed kind limit) (.fixed kind limit)
  | string : Twin .string .string
  | binary : Twin .binary .binary
  | list {element element' : Operator} {maxElements : Nat} : Twin element element' →
      Twin (.list element maxElements) (.list element' maxElements)
  | group {c d : TableCodec} : c.table.Matches d.table → c.limits = d.limits →
      List.Forall₂ (fun s s' => s.field.Matches s'.field) c.slots d.slots →
      (∀ (i : Nat) s s', c.slots[i]? = some s → d.slots[i]? = some s' →
        Twin s.operator s'.operator) →
      Twin (.group c) (.group d)

/-- Slots of fields that match, with operators that are twins. -/
structure Slot.Twin (s s' : Slot) : Prop where
  field : s.field.Matches s'.field
  operator : s.operator.Twin s'.operator

/-- Codecs of tables that match, with twins for slots. -/
structure TableCodec.Twin (c d : TableCodec) : Prop where
  table : c.table.Matches d.table
  limits : c.limits = d.limits
  slots : List.Forall₂ Slot.Twin c.slots d.slots

namespace Operator

variable {op op' : Operator}

theorem Twin.codecs {c d : TableCodec} (h : (Operator.group c).Twin (.group d)) : c.Twin d := by
  cases h with
  | group table limits fields operators =>
      refine ⟨table, limits, List.forall₂_iff_get.mpr ⟨fields.length_eq, fun i hi hj => ?_⟩⟩
      exact ⟨fields.get hi hj, operators i _ _ (List.getElem?_eq_getElem hi)
        (List.getElem?_eq_getElem hj)⟩

namespace Twin

theorem width?_eq (h : op.Twin op') : op.width? = op'.width? := by
  cases h <;> rfl

theorem isFixed_eq (h : op.Twin op') : op.isFixed = op'.isFixed := by
  rw [isFixed, isFixed, h.width?_eq]

theorem lengthWidth_eq (h : op.Twin op') : op.lengthWidth = op'.lengthWidth := by
  cases h <;> rfl

theorem typeText_eq (h : op.Twin op') : op.typeText = op'.typeText := by
  unfold typeText
  induction h with
  | fixed | string | binary => rfl
  | list _ ih => rw [type, type, FieldType.text, FieldType.text, ih]
  | group table => exact table.name

theorem reject_eq (h : op.Twin op') (v : Value) : op.reject v = op'.reject v := by
  rw [reject, reject, h.typeText_eq]

theorem accepts_eq (h : op.Twin op') (v : Value) : op.accepts v = op'.accepts v := by
  induction h generalizing v with
  | fixed | string | binary => rfl
  | list _ ih =>
      cases v with
      | list items => simp only [accepts, funext ih]
      | scalar | group => rfl
  | group table =>
      cases v with
      | group r => rw [accepts, accepts, table.name]
      | scalar | list => rfl

theorem foreign_eq {c d : TableCodec} (table : c.table.Matches d.table) (r : Record) :
    foreign c r = foreign d r := by
  rw [foreign, foreign, table.name]

theorem size_eq (h : op.Twin op') (v : Value) : op.size v = op'.size v := by
  induction h generalizing v with
  | fixed | string | binary => rfl
  | @list element element' maxElements twin ih =>
      have whole : (Operator.list element maxElements).Twin (.list element' maxElements) :=
        .list twin
      cases v with
      | list items =>
          rw [size, size, mapM_attach (fun x => element.size x),
            mapM_attach (fun x => element'.size x), twin.width?_eq, twin.lengthWidth_eq, funext ih]
      | scalar | group => simp only [size, whole.reject_eq]
  | @group c d table limits fields operators =>
      have whole : (Operator.group c).Twin (.group d) := .group table limits fields operators
      cases v with
      | group r => rw [size, size, foreign_eq table, table.name, whole.reject_eq]
      | scalar | list => simp only [size, whole.reject_eq]

theorem block_eq_of_payload (h : op.Twin op') (type : String) {v : Value}
    (payload : op.payload v = op'.payload v) : op.block type v = op'.block type v := by
  rw [block, block, h.isFixed_eq, h.lengthWidth_eq, h.size_eq, payload]

theorem payload_eq (h : op.Twin op') (v : Value) : op.payload v = op'.payload v := by
  induction h generalizing v with
  | fixed | string | binary => rfl
  | @list element element' maxElements twin ih =>
      have whole : (Operator.list element maxElements).Twin (.list element' maxElements) :=
        .list twin
      have blocks : ∀ x, element.block element.typeText x = element'.block element'.typeText x := by
        intro x
        rw [twin.typeText_eq]
        exact twin.block_eq_of_payload _ (ih x)
      cases v with
      | list items =>
          rw [payload, payload, mapM_attach (fun x => element.block element.typeText x),
            mapM_attach (fun x => element'.block element'.typeText x), twin.isFixed_eq,
            funext blocks]
      | scalar | group => simp only [payload, whole.reject_eq]
  | @group c d table limits fields operators =>
      have whole : (Operator.group c).Twin (.group d) := .group table limits fields operators
      cases v with
      | group r => rw [payload, payload, foreign_eq table, table.name, whole.reject_eq]
      | scalar | list => simp only [payload, whole.reject_eq]

theorem block_eq (h : op.Twin op') (type : String) (v : Value) :
    op.block type v = op'.block type v := h.block_eq_of_payload type (h.payload_eq v)

/-- **Twins write the same.** -/
theorem encode_eq (h : op.Twin op') (v : Value) : op.encode v = op'.encode v := by
  rw [encode, encode, h.size_eq, h.payload_eq]

end Twin

end Operator

/-! ## Writing records -/

/-- Twins of slots with one value. -/
structure Slot.TwinEntry (e e' : Slot × Value) : Prop where
  slot : e.1.Twin e'.1
  value : e.2 = e'.2

theorem layoutLength_eq_of_twins {cs cs' : List (Slot × Value)}
    (h : List.Forall₂ Slot.TwinEntry cs cs') : layoutLength cs = layoutLength cs' := by
  have sizes : cs.mapM (fun e => e.1.operator.size e.2) =
      cs'.mapM fun e => e.1.operator.size e.2 :=
    mapM_eq_mapM (h.imp fun e e' twins => by
      rw [twins.slot.operator.size_eq, twins.value])
  have slots : cs.map (fun e => RecordBuffer.entryLength + e.1.operator.lengthWidth) =
      cs'.map fun e => RecordBuffer.entryLength + e.1.operator.lengthWidth :=
    map_eq_map_of_forall₂ (h.imp fun e e' twins => by
      rw [twins.slot.operator.lengthWidth_eq])
  rw [layoutLength, layoutLength, mapM_attach (fun e : Slot × Value => e.1.operator.size e.2),
    mapM_attach (fun e : Slot × Value => e.1.operator.size e.2), sizes, slots]

theorem writingOrder_twins {cs cs' : List (Slot × Value)} (h : List.Forall₂ Slot.TwinEntry cs cs') :
    List.Forall₂ Slot.TwinEntry (writingOrder cs) (writingOrder cs') := by
  have fixed : ∀ e e', Slot.TwinEntry e e' → e.1.operator.isFixed = e'.1.operator.isFixed :=
    fun e e' twins => twins.slot.operator.isFixed_eq
  refine List.rel_append (List.rel_filter ?_ h) (List.rel_filter ?_ h)
  · intro e e' twins
    show e.1.operator.isFixed = true ↔ e'.1.operator.isFixed = true
    rw [fixed e e' twins]
  · intro e e' twins
    show (!e.1.operator.isFixed) = true ↔ (!e'.1.operator.isFixed) = true
    rw [fixed e e' twins]

namespace TableCodec

variable {c d : TableCodec}

namespace Twin

theorem layout_eq (h : c.Twin d) {cs cs' : List (Slot × Value)}
    (twins : List.Forall₂ Slot.TwinEntry cs cs') : c.layout cs = d.layout cs' := by
  let write (e : Slot × Value) : Except CodecError (Int16 × Bytes) := do
    return (e.1.field.id, ← e.1.operator.block e.1.field.type.text e.2)
  have blocks : (writingOrder cs).mapM write = (writingOrder cs').mapM write := by
    apply mapM_eq_mapM
    apply (writingOrder_twins twins).imp
    intro e e' twins
    show write e = write e'
    simp only [write, twins.slot.field.id, twins.slot.field.text, twins.slot.operator.block_eq,
      twins.value]
  have check : c.checkLength = d.checkLength := by
    funext n
    rw [checkLength, checkLength, h.limits, h.table.name]
  rw [layout, layout, layoutLength_eq_of_twins twins, check, h.table.version, mapM_attach write,
    mapM_attach write, blocks]

/-- Twins know the same numbers. -/
theorem slot? (h : c.Twin d) (id : Int16) : Option.Rel Slot.Twin (c.slot? id) (d.slot? id) := by
  rw [TableCodec.slot?, TableCodec.slot?, List.findRev?_eq_find?_reverse,
    List.findRev?_eq_find?_reverse]
  apply rel_find? _ (List.rel_reverse h.slots)
  intro s s' twins
  rw [twins.field.id]

theorem checkSlot (h : c.Twin d) (values : IdMap Value) {s s' : Slot} (twins : s.Twin s') :
    Alike (Option.Rel Slot.TwinEntry) (c.checkSlot values s) (d.checkSlot values s') := by
  rw [TableCodec.checkSlot, TableCodec.checkSlot, twins.field.id, twins.field.name,
    twins.field.text, twins.field.isRequired, h.table.name]
  cases values.find? s'.field.id with
  | some v =>
      simp only [twins.operator.accepts_eq]
      split
      · exact .ok (.some ⟨twins, rfl⟩)
      · exact .error _
  | none =>
      simp only []
      split
      · exact .error _
      · exact .ok .none

theorem contents (h : c.Twin d) (values : IdMap Value) :
    Alike (List.Forall₂ Slot.TwinEntry) (c.contents values) (d.contents values) := by
  have known : ∀ id, (c.slot? id).isNone = (d.slot? id).isNone := by
    intro id
    have rel := h.slot? id
    generalize c.slot? id = x at rel
    generalize d.slot? id = y at rel
    cases rel <;> rfl
  rw [TableCodec.contents, TableCodec.contents, h.table.name]
  simp only [known]
  cases values.ids.find? fun id => (d.slot? id).isNone with
  | some id => exact .error _
  | none =>
      refine (Alike.mapM (h.slots.imp fun s s' twins => h.checkSlot values twins)).bind ?_
      intro found found' related
      exact .ok (List.rel_filterMap (fun _ _ twins => twins) related)

/-- **Twins write the same records.** -/
theorem encode_eq (h : c.Twin d) (values : IdMap Value) : c.encode values = d.encode values := by
  apply Alike.eq
  refine (h.contents values).bind fun cs cs' twins => ?_
  rw [h.layout_eq twins]
  exact .refl (fun _ => rfl) _

theorem encodedLength_eq (h : c.Twin d) (values : IdMap Value) :
    c.encodedLength values = d.encodedLength values := by
  apply Alike.eq
  refine (h.contents values).bind fun cs cs' twins => ?_
  rw [layoutLength_eq_of_twins twins]
  exact .refl (fun _ => rfl) _

/-! ## Reading -/

/-- Twins take the same buffers. -/
theorem checkBuffer_eq (h : c.Twin d) (b : RecordBuffer) : c.checkBuffer b = d.checkBuffer b := by
  have missing := rel_find? (p := fun f => !b.contains f.id) (q := fun f => !b.contains f.id)
    (fun f g matched => by rw [matched.id]) h.table.requiredFields
  rw [checkBuffer, checkBuffer, h.table.name]
  generalize (c.table.requiredFields.filter Field.isStored).find? _ = x at missing
  generalize (d.table.requiredFields.filter Field.isStored).find? _ = y at missing
  cases missing with
  | none => rfl
  | some matched => simp only [matched.name]

end Twin

end TableCodec

/-- The same but for records, which read one buffer through twins. -/
inductive Value.Twin : Value → Value → Prop
  | scalar (s : Scalar) : Twin (.scalar s) (.scalar s)
  | list {xs ys : List Value} : xs.length = ys.length →
      (∀ (i : Nat) x y, xs[i]? = some x → ys[i]? = some y → Twin x y) → Twin (.list xs) (.list ys)
  | group {c d : TableCodec} (b : RecordBuffer) : c.Twin d →
      Twin (.group (Record.backed c b)) (.group (Record.backed d b))

theorem Value.Twin.of_forall₂ {xs ys : List Value} (h : List.Forall₂ Value.Twin xs ys) :
    Value.Twin (.list xs) (.list ys) := by
  refine .list h.length_eq fun i x y hx hy => ?_
  obtain ⟨bx, rfl⟩ := List.getElem?_eq_some_iff.mp hx
  obtain ⟨bound, rfl⟩ := List.getElem?_eq_some_iff.mp hy
  exact h.get bx bound

/-- Twins read one buffer alike. -/
theorem TableCodec.Twin.ofBuffer {c d : TableCodec} (h : c.Twin d) (b : RecordBuffer) :
    Alike (fun r s => Value.Twin (.group r) (.group s)) (Record.ofBuffer c b)
      (Record.ofBuffer d b) := by
  rw [Record.ofBuffer, Record.ofBuffer, h.checkBuffer_eq]
  exact .bind_left _ fun _ => .ok (.group b h)

theorem TableCodec.Twin.ofBytes {c d : TableCodec} (h : c.Twin d) (bytes : Bytes) :
    Alike (fun r s => Value.Twin (.group r) (.group s)) (Record.ofBytes c bytes)
      (Record.ofBytes d bytes) := by
  rw [Record.ofBytes, Record.ofBytes, h.limits]
  exact .bind_left _ fun b => h.ofBuffer b

namespace Operator.Twin

variable {op op' : Operator}

theorem elementCount_eq (h : op.Twin op') : op.elementCount = op'.elementCount := by
  funext maxElements bytes offset length
  rw [elementCount, elementCount, h.width?_eq]

theorem elementSpan_eq (h : op.Twin op') : op.elementSpan = op'.elementSpan := by
  funext bytes offset length count index
  rw [elementSpan, elementSpan, h.width?_eq, h.lengthWidth_eq]

theorem checkFilled_eq (h : op.Twin op') : op.checkFilled = op'.checkFilled := by
  funext count length
  rw [checkFilled, checkFilled, h.width?_eq]

/-- **Twins read twins.** -/
theorem decode (h : op.Twin op') (bytes : Bytes) (offset length : Nat) :
    Alike Value.Twin (op.decode bytes offset length) (op'.decode bytes offset length) := by
  induction h generalizing offset length with
  | fixed kind limit =>
      rw [Operator.decode]
      exact .bind_left _ fun _ => .bind_left _ fun _ => .ok (.scalar _)
  | string =>
      rw [Operator.decode]
      refine .bind_left _ fun payload => ?_
      cases Text.ofUtf8? payload with
      | some s => exact .ok (.scalar _)
      | none => exact .error _
  | binary =>
      rw [Operator.decode]
      exact .bind_left _ fun _ => .ok (.scalar _)
  | list twin ih =>
      rw [Operator.decode, Operator.decode, twin.elementCount_eq, twin.checkFilled_eq,
        twin.elementSpan_eq]
      refine .bind_left _ fun count => .bind_left _ fun _ => ?_
      refine Alike.bind (R := List.Forall₂ Value.Twin) (Alike.mapM ?_) fun items items' twins =>
        .ok (.of_forall₂ twins)
      exact List.forall₂_same.mpr fun index _ =>
        .bind_left _ fun span => ih span.1 span.2
  | group table limits fields operators =>
      have codecs := (Operator.Twin.group table limits fields operators).codecs
      rw [Operator.decode, Operator.decode, limits, table.name]
      refine .bind_left _ fun payload => .bind_left _ fun b => ?_
      exact ((codecs.ofBuffer b).mapError _).bind fun r s twins => .ok twins

end Operator.Twin

/-- Twins of slots read twins. -/
theorem Slot.Twin.read {s s' : Slot} (h : s.Twin s') (b : RecordBuffer) (offset : Nat) :
    Alike Value.Twin (s.read b offset) (s'.read b offset) := by
  have span : s.span b offset = s'.span b offset := by
    rw [Slot.span, Slot.span, h.operator.width?_eq, h.operator.lengthWidth_eq, h.field.name]
  rw [Slot.read, Slot.read, span]
  exact .bind_left _ fun (start, length) => h.operator.decode b.bytes start length

namespace TableCodec.Twin

variable {c d : TableCodec}

theorem knownEntries (h : c.Twin d) (b : RecordBuffer) :
    List.Forall₂ (fun e e' : Slot × Nat => e.1.Twin e'.1 ∧ e.2 = e'.2) (c.knownEntries b)
      (d.knownEntries b) := by
  rw [TableCodec.knownEntries, TableCodec.knownEntries]
  refine List.rel_filterMap (R := (· = ·)) ?_ (List.forall₂_refl b.entries)
  rintro ⟨id, offset⟩ _ rfl
  have rel := h.slot? id
  show Option.Rel _ ((c.slot? id).map _) ((d.slot? id).map _)
  generalize c.slot? id = x at rel ⊢
  generalize d.slot? id = y at rel ⊢
  cases rel with
  | none => exact .none
  | some twins => exact .some ⟨twins, rfl⟩

/-- **Twins read twins of all fields.** -/
theorem decodeAll (h : c.Twin d) (b : RecordBuffer) :
    Alike (IdMap.Agree Value.Twin) (c.decodeAll b) (d.decodeAll b) := by
  have each : Alike (List.Forall₂ fun e e' => e.1 = e'.1 ∧ Value.Twin e.2 e'.2) (c.decodeAll b)
      (d.decodeAll b) := by
    apply Alike.mapM
    apply (h.knownEntries b).imp
    rintro ⟨s, offset⟩ ⟨s', _⟩ ⟨twins, rfl⟩
    exact ((twins.read b offset).mapError _).bind fun v w twin => .ok ⟨twins.field.id, twin⟩
  exact each.imp fun _ _ _ _ entries => IdMap.agree_of_forall₂ entries

end TableCodec.Twin

/-- Twins are equal where they can be read. -/
theorem Value.Twin.equal {v w : Value} (h : v.Twin w) (readable : v.Readable) : v.Equal w := by
  induction readable generalizing w with
  | scalar s =>
      cases h
      exact .scalar s
  | list _ ih =>
      cases h with
      | list length each =>
          exact .list length fun i x y hx hy => ih x (List.mem_of_getElem? hx) (each i x y hx hy)
  | @group r m read _ ih =>
      cases h with
      | @group c d b twins =>
          rw [Record.values_backed] at read
          have alike := twins.decodeAll b
          rw [read] at alike
          cases decoded : d.decodeAll b with
          | error e =>
              rw [decoded] at alike
              cases alike
          | ok n =>
              rw [decoded] at alike
              cases alike with
              | ok maps =>
                  refine .group twins.table.name ((Record.values_backed c b).trans read)
                    ((Record.values_backed d b).trans decoded) maps.ids fun i v w hv hw => ?_
                  exact ih i v hv (maps.values i v w hv hw)

end RecordFormat
