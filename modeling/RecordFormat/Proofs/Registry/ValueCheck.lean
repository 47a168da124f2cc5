import RecordFormat.Proofs.Registry.RoundTrip

/-!
# What the check of a value is worth

`accepts` takes every complete record whose table has the group's name, also one of another
version of the table or one under other limits. Such a record is written by its own codec and
read by the operator's. `Operator.Recovers` says when that gives an equal value; it is exactly
the condition under which decoding is the inverse of encoding (`decode_encode_iff`).
-/

namespace RecordFormat

open Outcome
open Bytes (PartAt)
open Value (Equal EqualMaps)

/-- Read through the codec, a buffer is within the size limit and complete, and has the fields
of the map and no others, with equal values. -/
structure TableCodec.Shows (c : TableCodec) (b : RecordBuffer) (m : IdMap Value) : Prop where
  small : b.size ≤ c.limits.maxRecordSize
  complete : ∀ f ∈ c.table.requiredFields.filter Field.isStored, f.id ∈ b.fieldIds
  fields : ∀ id, id ∈ m.ids ↔ (c.slot? id).isSome ∧ id ∈ b.fieldIds
  values : ∀ id s offset v, c.slot? id = some s → b.locate? id = some offset →
    m.find? id = some v → ∃ w, s.read b offset = .ok w ∧ Equal v w

theorem TableCodec.shows_iff {c : TableCodec} {b : RecordBuffer} {m : IdMap Value}
    (sorted : IdMap.Sorted m) : c.Shows b m ↔ b.size ≤ c.limits.maxRecordSize ∧
      c.checkBuffer b = .ok () ∧ ∃ n, c.decodeAll b = .ok n ∧ EqualMaps m n := by
  rw [checkBuffer_eq_ok_iff]
  constructor
  · rintro ⟨small, complete, fields, values⟩
    have value : ∀ id s offset, c.slot? id = some s → b.locate? id = some offset →
        ∃ v w, m.find? id = some v ∧ s.read b offset = .ok w ∧ Equal v w := by
      intro id s offset slot found
      have present : id ∈ m.ids := (fields id).mpr ⟨by rw [slot]; rfl,
        RecordBuffer.contains_iff.mp (by rw [RecordBuffer.contains, found]; rfl)⟩
      obtain ⟨v, hv⟩ := IdMap.exists_of_mem_ids present
      obtain ⟨w, read, equal⟩ := values id s offset v slot found hv
      exact ⟨v, w, hv, read, equal⟩
    obtain ⟨n, decoded⟩ := exists_decodeAll fun id s offset slot found => by
      obtain ⟨v, w, -, read, -⟩ := value id s offset slot found
      exact ⟨w, read⟩
    refine ⟨small, complete, n, decoded, ?_, ?_⟩
    · exact sorted.ids_eq (sorted_of_decodeAll decoded) fun id => by
        rw [fields, mem_ids_of_decodeAll decoded]
    · intro id v w hv hw
      obtain ⟨s, offset, slot, found, read⟩ := (find?_of_decodeAll decoded).mp hw
      obtain ⟨w', read', equal⟩ := values id s offset v slot found hv
      rw [read] at read'
      cases read'
      exact equal
  · rintro ⟨small, complete, n, decoded, equal⟩
    refine ⟨small, complete, ?_, ?_⟩
    · intro id
      rw [equal.ids, mem_ids_of_decodeAll decoded]
    · intro id s offset v slot found hv
      obtain ⟨w, hw, same⟩ := equal.exists_right hv
      obtain ⟨s', offset', slot', found', read⟩ := (find?_of_decodeAll decoded).mp hw
      rw [slot] at slot'
      rw [found] at found'
      cases slot'
      cases found'
      exact ⟨w, read, same⟩

namespace Operator

/-- The operator's codecs show every record inside as it is. -/
inductive Recovers : Operator → Value → Prop
  | fixed (kind : FixedKind) (limit : Binary64) (s : Scalar) :
      Recovers (.fixed kind limit) (.scalar s)
  | string (s : Scalar) : Recovers .string (.scalar s)
  | binary (s : Scalar) : Recovers .binary (.scalar s)
  | list {element : Operator} {maxElements : Nat} {items : List Value} :
      (∀ v ∈ items, Recovers element v) → Recovers (.list element maxElements) (.list items)
  | group {codec : TableCodec} {r : Record} {b : RecordBuffer} {m : IdMap Value} :
      r.toBytes = .ok b.bytes → r.values = .ok m → codec.Shows b m →
      Recovers (.group codec) (.group r)

variable {op : Operator} {v : Value} {p : Bytes}

/-- What the codecs show is read, wherever it stands. -/
theorem Recovers.reads (h : op.Recovers v) (payload : op.payload v = .ok p)
    (fits : p.size ≤ BigEndian.maximum 4) : op.Reads p (Equal v) := by
  induction h generalizing p with
  | fixed kind limit s => exact fun bytes offset part => ⟨_, decode_fixed part payload, .scalar s⟩
  | string s => exact fun bytes offset part => ⟨_, decode_string part payload, .scalar s⟩
  | binary s => exact fun bytes offset part => ⟨_, decode_binary part payload, .scalar s⟩
  | list _ ih =>
      obtain ⟨items, blocks, same, few, written, rfl⟩ := payload_list_eq_ok_iff.mp payload
      cases same
      obtain ⟨payloads, rfl, frames, pairs⟩ := exists_payloads written
      have each := forall₂_imp_of_mem pairs fun x hx q hq hp =>
        ih x hx hp (Nat.le_trans (size_le_of_mem_payloads frames fits hq) fits)
      intro bytes offset part
      obtain ⟨_, decoded, ws, rfl, equal⟩ :=
        reads_list frames (pairs.length_eq ▸ few) fits each bytes offset part
      exact ⟨_, decoded, Equal.list_iff.mpr equal⟩
  | @group codec r b m octets read shows =>
      rcases payload_group_eq_ok_iff.mp payload with ⟨_, same, name, written⟩
      cases same
      rw [octets, Except.ok.injEq] at written
      subst written
      obtain ⟨small, checked, n, decoded, equal⟩ :=
        (TableCodec.shows_iff (Record.sorted_of_values read)).mp shows
      intro bytes offset part
      exact ⟨_, decode_group part small checked,
        .of_maps name read ((Record.values_backed codec b).trans decoded) equal⟩

/-- What is read of a list is read of its elements. -/
theorem forall₂_of_decode_list {element : Operator} {maxElements offset : Nat}
    {payloads : List Bytes} {bytes : Bytes} {w : Value}
    (part : PartAt bytes offset (listOf element payloads))
    (frames : ∀ p ∈ payloads, element.Frames p) (few : payloads.length ≤ maxElements)
    (fits : (listOf element payloads).size ≤ BigEndian.maximum 4)
    (decoded : (list element maxElements).decode bytes offset (listOf element payloads).size =
      .ok w) :
    ∃ ws, w = .list ws ∧ List.Forall₂ (fun p w => ∃ position, PartAt bytes position p ∧
      element.decode bytes position p.size = .ok w) payloads ws := by
  obtain ⟨ws, rfl, counted, -, each⟩ := decode_list_eq_ok_iff.mp decoded
  rw [elementCount_of_partAt part frames few fits, Except.ok.injEq] at counted
  refine ⟨ws, rfl, List.forall₂_iff_get.mpr ⟨counted, ?_⟩⟩
  intro i hp hw
  have step := each i hw
  obtain ⟨position, span, inside⟩ := elementSpan_of_partAt part frames fits hp
  rw [← counted, span] at step
  exact ⟨position, inside, step⟩

/-- Whatever is read as an equal value is recovered. -/
theorem Recovers.of_decode {op : Operator} {v w : Value} {p bytes : Bytes} {offset : Nat}
    (payload : op.payload v = .ok p) (fits : p.size ≤ BigEndian.maximum 4)
    (part : PartAt bytes offset p) (decoded : op.decode bytes offset p.size = .ok w)
    (equal : Equal v w) : op.Recovers v := by
  match op with
  | .fixed kind limit =>
      rcases payload_fixed_eq_ok_iff.mp payload with ⟨s, rfl, -, -⟩
      exact .fixed kind limit s
  | .string =>
      obtain ⟨s, rfl, -, -⟩ := payload_string_eq_ok_iff.mp payload
      exact .string _
  | .binary =>
      rcases payload_binary_eq_ok_iff.mp payload with ⟨rfl, -⟩
      exact .binary _
  | .group codec =>
      obtain ⟨r, rfl, name, written⟩ := payload_group_eq_ok_iff.mp payload
      rcases decode_group_eq_ok_iff.mp decoded with ⟨b, slice, small, checked, rfl⟩
      rw [part.slice_eq, Except.ok.injEq] at slice
      subst slice
      -- An equal record has the values that the codec shows of the octets.
      obtain ⟨m, n, read, shown, maps⟩ := equal.exists_maps
      rw [Record.values_backed] at shown
      exact .group written read ((TableCodec.shows_iff (Record.sorted_of_values read)).mpr
        ⟨small, checked, n, shown, maps⟩)
  | .list element maxElements =>
      obtain ⟨items, blocks, rfl, few, written, rfl⟩ := payload_list_eq_ok_iff.mp payload
      obtain ⟨payloads, rfl, frames, pairs⟩ := exists_payloads written
      obtain ⟨ws, rfl, read⟩ :=
        forall₂_of_decode_list part frames (pairs.length_eq ▸ few) fits decoded
      have each := Equal.list_iff.mp equal
      refine .list ?_
      intro x hx
      obtain ⟨i, hi, rfl⟩ := List.mem_iff_getElem.mp hx
      have hp : i < payloads.length := pairs.length_eq ▸ hi
      have hw : i < ws.length := each.length_eq ▸ hi
      obtain ⟨position, inside, here⟩ := read.get hp hw
      have within := size_le_of_mem_payloads frames fits (List.getElem_mem hp)
      exact of_decode (pairs.get hi hp) (Nat.le_trans within fits) inside here (each.get hi hw)

theorem encode_eq_ok_iff : op.encode v = .ok p ↔ op.payload v = .ok p := by
  rw [encode, bind_eq_ok_iff]
  constructor
  · rintro ⟨_, -, payload⟩
    exact payload
  · intro payload
    exact ⟨_, size_of_payload payload, payload⟩

/-- **When decoding is the inverse of encoding.** The payload of an accepted value, of less than
`2 ^ 32` octets, is read back as an equal value between any octets exactly when the operator's
codecs show every record inside as it is. Records of the operator's own codecs are shown so,
where the tables number their fields apart and the payload is within the size limit. -/
theorem decode_encode_iff {limits : Limits} {t : FieldType}
    (given : Registry.GivesOperator limits (fun _ => True) t op) (accepted : op.accepts v = true)
    (encoded : op.encode v = .ok p) (fits : p.size ≤ BigEndian.maximum 4) :
    ((∀ front back : Bytes, ∃ w, op.decode (front ++ p ++ back) front.size p.size = .ok w ∧
      Equal v w) ↔ op.Recovers v) ∧
    (op.Everywhere (fun d => d.table.Numbered) → op.Holds (fun _ => True) v →
      p.size ≤ limits.maxRecordSize → op.Recovers v) := by
  have payload := encode_eq_ok_iff.mp encoded
  have place : PartAt (.empty ++ p ++ .empty) ByteArray.empty.size p := Bytes.partAt_append _ _ _
  constructor
  · constructor
    · intro inverse
      obtain ⟨w, decoded, equal⟩ := inverse .empty .empty
      exact .of_decode payload fits place decoded equal
    · intro recovers front back
      exact recovers.reads payload fits _ _ (Bytes.partAt_append front p back)
  · intro tables fitting small
    have compiled := (given.compiled nestedIn_true).inside
    have sound := (compiled.and tables).imp fun _ both => both.1.sound both.2
    obtain ⟨w, decoded, returns⟩ :=
      readsBack Record.lasting_true fitting sound accepted p payload small fits _ _ place
    exact .of_decode payload fits place decoded returns.equal

end Operator

namespace Household

theorem givesOperator_address :
    Registry.GivesOperator limits (fun _ => True) (.bound address) (.group addressCodec) := by
  refine ⟨trivial, { limits }, .fresh, ?_⟩
  rw [FieldType.operator]
  dsimp only
  rw [Table.codec_eq, layout_address]
  simp only [List.mapM_cons, List.mapM_nil, zip]
  rw [FieldType.operator]
  rfl

/-- A place that has not been written yet is recovered wherever its payload stands. -/
theorem decode_encode_place : ∃ p, (Operator.group addressCodec).encode (.group place) = .ok p ∧
    ∀ front back : Bytes, ∃ w, (Operator.group addressCodec).decode (front ++ p ++ back)
      front.size p.size = .ok w ∧ Equal (.group place) w := by
  obtain ⟨p, payload, size⟩ := payload_place
  have encoded := Operator.encode_eq_ok_iff.mpr payload
  have numbered : (Operator.group addressCodec).Everywhere fun d => d.table.Numbered :=
    (everywhere_person numbered_person numbered_address).slot (List.mem_cons_self ..)
  obtain ⟨inverse, own⟩ := Operator.decode_encode_iff givesOperator_address rfl encoded
    (by rw [size]; decide)
  exact ⟨p, encoded, inverse.mpr (own numbered holds_place (by rw [size]; decide))⟩

/-- A later version of the table, without the required field of the first. -/
def relocated : Table := ⟨"Address", 2, [⟨2, "city", .primitive .string, .required, none⟩]⟩

def relocatedCodec : TableCodec :=
  ⟨relocated, limits, [⟨⟨2, "city", .primitive .string, .required, none⟩, .string⟩]⟩

def moved : Record :=
  { Record.empty relocatedCodec with pending := [(2, .scalar (.string "Paris"))] }

theorem payload_moved : ∃ p, (Operator.group addressCodec).payload (.group moved) = .ok p ∧
    p.size ≤ BigEndian.maximum 4 := by
  obtain ⟨p, laid, size⟩ := relocatedCodec.exists_layout
    (relocatedCodec.filled [(2, .scalar (.string "Paris"))])
    (.cons ⟨Operator.payload_string_eq_ok_iff.mpr ⟨_, rfl, by decide, rfl⟩, fun _ => by decide⟩
      .nil) (by decide) (by decide)
  refine ⟨p, Operator.payload_group_eq_ok_iff.mpr ⟨moved, rfl, rfl, ?_⟩, size ▸ by decide⟩
  exact Record.toBytes_eq_ok_iff.mpr (.inr ⟨rfl, _, rfl, laid⟩)

/-- **The check is not enough.** A complete, readable record of another version of the table is
accepted and encoded, but its payload is not read back. -/
theorem not_decode_encode_moved : ∃ p, (Operator.group addressCodec).accepts (.group moved) = true ∧
    Value.Readable (.group moved) ∧ (Operator.group addressCodec).encode (.group moved) = .ok p ∧
    ¬∀ front back : Bytes, ∃ w, (Operator.group addressCodec).decode (front ++ p ++ back)
      front.size p.size = .ok w ∧ Equal (.group moved) w := by
  obtain ⟨p, payload, fits⟩ := payload_moved
  have read : moved.values = .ok [(2, .scalar (.string "Paris"))] := rfl
  refine ⟨p, rfl, ?_, Operator.encode_eq_ok_iff.mpr payload, ?_⟩
  · refine .group read ?_
    intro i v found
    rw [(Prod.mk.inj (List.mem_singleton.mp (IdMap.mem_of_find? found))).2]
    exact .scalar _
  · intro inverse
    obtain ⟨w, decoded, equal⟩ := inverse .empty .empty
    have recovers := Operator.Recovers.of_decode payload fits (Bytes.partAt_append _ _ _) decoded
      equal
    cases recovers with
    | group octets read' shows =>
        rw [read] at read'
        cases read'
        -- The field of the later version is unknown to the codec.
        have known := ((shows.fields 2).mp (by decide)).1
        revert known
        decide

end Household

end RecordFormat
