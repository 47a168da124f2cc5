import RecordFormat.Proofs.Codec.Versions
import RecordFormat.Proofs.Record.Edits

/-!
# Canonical octets

Values that are written anew have one written form: equal maps become the same octets. But a
record without changes is written as its buffer, whoever made that. So equal values become the
same octets where every record in them, at any depth, has changes or is over octets that its
codec writes again (`Record.Own`), and is of the same codec as the record that it is equal to
(`Value.Congruent`).
-/

namespace RecordFormat

open Outcome
open Value (Equal EqualMaps)

/-- Whichever operator writes both values, it writes the same octets. -/
def Value.SamePayload (v w : Value) : Prop :=
  ∀ (op : Operator) (p q : Bytes), op.payload v = .ok p → op.payload w = .ok q → p = q

namespace TableCodec

variable {R : Value → Value → Prop} {c : TableCodec} {m n : IdMap Value} {bytes bytes' : Bytes}

/-- Slots of maps that agree, side by side. -/
theorem filled_pairs (agree : IdMap.Agree R m n) :
    List.Forall₂ (fun e f => e.1 = f.1 ∧ R e.2 f.2) (c.filled m) (c.filled n) := by
  have slots : List.Forall₂ (· = ·) c.slots c.slots := List.forall₂_same.mpr fun _ _ => rfl
  refine List.rel_filterMap ?_ slots
  rintro s _ rfl
  have rel := agree.rel s.field.id
  simp only []
  generalize m.find? s.field.id = x at rel ⊢
  generalize n.find? s.field.id = y at rel ⊢
  cases rel with
  | none => exact .none
  | some related => exact .some ⟨rfl, related⟩

/-- **Maps that agree have one written form**, if values that agree have one payload. -/
theorem eq_of_encode (agree : IdMap.Agree R m n)
    (unique : ∀ v w, R v w → v.SamePayload w)
    (encoded : c.encode m = .ok bytes) (encoded' : c.encode n = .ok bytes') : bytes = bytes' := by
  obtain ⟨-, laid⟩ := encode_eq_ok_iff.mp encoded
  obtain ⟨-, laid'⟩ := encode_eq_ok_iff.mp encoded'
  obtain ⟨_, blocks, rfl, -, -, written, rfl⟩ := exists_blocks_of_layout laid
  obtain ⟨_, blocks', rfl, -, -, written', rfl⟩ := exists_blocks_of_layout laid'
  have pairs := filled_pairs (c := c) agree
  have order : List.Forall₂ (fun e f => e.1 = f.1 ∧ R e.2 f.2) (writingOrder (c.filled m))
      (writingOrder (c.filled n)) := by
    refine List.rel_append (List.rel_filter ?_ pairs) (List.rel_filter ?_ pairs)
    · intro e f h
      simp only [h.1]
    · intro e f h
      simp only [h.1]
  have same : blocks = blocks' := by
    refine eq_of_forall₂ (fun e f block block' here written written' => ?_) order written written'
    obtain ⟨slot, related⟩ := here
    obtain ⟨p, payload, -, eq⟩ := Operator.block_eq_ok_iff.mp written.2
    obtain ⟨q, payload', -, eq'⟩ := Operator.block_eq_ok_iff.mp written'.2
    rw [← slot] at payload' eq'
    obtain rfl := unique _ _ related _ p q payload payload'
    exact Prod.ext (by rw [written.1, written'.1, slot]) (eq.trans eq'.symm)
  rw [same]

end TableCodec

namespace Record

variable {r : Record} {m : IdMap Value} {bytes : Bytes}

/-- What is written of the record is what its codec writes of its values: without changes, the
buffer must be. -/
def Own (r : Record) : Prop := r.isDirty = false → ∀ b, r.buffer = some b → r.codec.Wrote b

theorem Own.encode_of_toBytes (own : r.Own) (read : r.values = .ok m)
    (written : r.toBytes = .ok bytes) : r.codec.encode m = .ok bytes := by
  cases dirty : r.isDirty with
  | true => exact (toBytes_eq_encode dirty read).symm.trans written
  | false =>
      obtain ⟨b, buffer⟩ := Option.isSome_iff_exists.mp (isDirty_eq_false_iff.mp dirty).1
      rw [toBytes_of_clean buffer dirty, Except.ok.injEq] at written
      rw [values_of_clean buffer dirty] at read
      obtain ⟨n, decoded, encoded⟩ := own dirty b buffer
      rw [read, Except.ok.injEq] at decoded
      rw [decoded, ← written]
      exact encoded

/-- Two records of one codec, written as it writes their values. -/
structure SameSource (r s : Record) : Prop where
  codec : r.codec = s.codec
  own : r.Own
  own' : s.Own

end Record

/-- Equal, by records that are two and two from the same source. -/
structure Value.Congruent (v w : Value) : Prop where
  equal : Equal v w
  linked : v.Linked Record.SameSource w

namespace Value

variable {v w : Value}

/-- Lists of elements with the same payloads have the same payload. -/
theorem samePayload_list {xs ys : List Value} (length : xs.length = ys.length)
    (each : ∀ (i : Nat) x y, xs[i]? = some x → ys[i]? = some y → SamePayload x y) :
    (Value.list xs).SamePayload (.list ys) := by
  intro op p q written written'
  cases op with
  | list element maxElements =>
      obtain ⟨_, blocks, same, -, here, rfl⟩ := Operator.payload_list_eq_ok_iff.mp written
      obtain ⟨_, blocks', same', -, here', rfl⟩ := Operator.payload_list_eq_ok_iff.mp written'
      cases same
      cases same'
      have pairs : List.Forall₂ SamePayload xs ys :=
        List.forall₂_iff_get.mpr ⟨length, fun i hx hy =>
          each i _ _ (List.getElem?_eq_getElem hx) (List.getElem?_eq_getElem hy)⟩
      have same : blocks = blocks' := by
        refine eq_of_forall₂ (fun x y block block' unique written written' => ?_) pairs here here'
        obtain ⟨p, payload, -, rfl⟩ := Operator.block_eq_ok_iff.mp written
        obtain ⟨q, payload', -, rfl⟩ := Operator.block_eq_ok_iff.mp written'
        rw [unique element p q payload payload']
      rw [same]
  | fixed | string | binary | group => simp [Operator.payload] at written

/-- Records from the same source have the same payload, if their values have. -/
theorem samePayload_group {r s : Record} {m n : IdMap Value} (source : r.SameSource s)
    (read : r.values = .ok m) (read' : s.values = .ok n) (agree : IdMap.Agree SamePayload m n) :
    (Value.group r).SamePayload (.group s) := by
  intro op p q written written'
  cases op with
  | group codec =>
      obtain ⟨_, same, -, written⟩ := Operator.payload_group_eq_ok_iff.mp written
      obtain ⟨_, same', -, written'⟩ := Operator.payload_group_eq_ok_iff.mp written'
      cases same
      cases same'
      have encoded' := source.own'.encode_of_toBytes read' written'
      rw [← source.codec] at encoded'
      exact TableCodec.eq_of_encode agree (fun _ _ same => same)
        (source.own.encode_of_toBytes read written) encoded'
  | fixed | string | binary | list => simp [Operator.payload] at written

/-- **Congruent values have one payload.** -/
theorem Congruent.samePayload (congruent : v.Congruent w) : v.SamePayload w := by
  have linked := congruent.linked.and_equal congruent.equal
  clear congruent
  induction linked with
  | scalar s =>
      intro op p q written written'
      rw [written, Except.ok.injEq] at written'
      exact written'
  | list length _ ih => exact samePayload_list length ih
  | group here read read' _ ih =>
      obtain ⟨source, equal⟩ := here
      obtain ⟨_, _, same, same', maps⟩ := equal.exists_maps
      rw [read, Except.ok.injEq] at same
      rw [read', Except.ok.injEq] at same'
      subst same same'
      exact samePayload_group source read read' ⟨maps.ids, ih⟩

end Value

/-- **Congruent records are the same octets.** -/
theorem Record.eq_of_toBytes {r s : Record} {bytes bytes' : Bytes}
    (congruent : (Value.group r).Congruent (.group s)) (written : r.toBytes = .ok bytes)
    (written' : s.toBytes = .ok bytes') : bytes = bytes' := by
  have codec : s.codec.table.name = r.codec.table.name := by
    cases congruent.linked with
    | group source => rw [source.codec]
  exact congruent.samePayload _ _ _
    (Operator.payload_group_eq_ok_iff.mpr ⟨r, rfl, rfl, written⟩)
    (Operator.payload_group_eq_ok_iff.mpr ⟨s, rfl, codec, written'⟩)

end RecordFormat
