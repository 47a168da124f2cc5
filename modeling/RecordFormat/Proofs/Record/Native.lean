import Mathlib
import RecordFormat.Proofs.Record.Agreement
import RecordFormat.Proofs.Record.Canonical
import RecordFormat.Proofs.Record.Growth

/-!
# Native records

Records are written canonically that began new, or with octets that their codec writes again,
and were changed by setting values made of such records (`Value.Native`): equal ones are the same
octets, whatever they went through (`TableCodec.canonical_of_givesCodec`). Octets from elsewhere
are passed on as they are, and these may be others (`Household.not_canonical_of_equal`).
-/

namespace RecordFormat

open Outcome
open Value (Equal EqualMaps)

/-- A group value where the operator has a group is a record of the group's own codec. -/
def Operator.Binds : Operator → Value → Prop
  | .group codec, .group r => r.codec = codec
  | .list element _, .list items => ∀ v ∈ items, element.Binds v
  | _, _ => True

theorem Operator.binds_of_decode : ∀ {op : Operator} {bytes : Bytes} {offset length : Nat}
    {v : Value}, op.decode bytes offset length = .ok v → op.Binds v
  | .group codec, _, _, _, _, decoded => by
      obtain ⟨b, -, -, -, rfl⟩ := decode_group_eq_ok_iff.mp decoded
      exact rfl
  | .list element _, _, _, _, _, decoded => by
      rcases decode_list_eq_ok_iff.mp decoded with ⟨items, rfl, -, -, each⟩
      intro v hv
      obtain ⟨index, bound, rfl⟩ := List.mem_iff_getElem.mp hv
      obtain ⟨span, -, inside⟩ := bind_eq_ok_iff.mp (each index bound)
      exact binds_of_decode inside
  | .fixed .., _, _, _, _, _ | .string, _, _, _, _, _ | .binary, _, _, _, _, _ => by
      simp [Binds]

/-- Made of scalars, lists and records that began new, or with octets that their codec writes
again, and that were changed any number of times by setting such values. -/
inductive Value.Native : Value → Prop
  | scalar (s : Scalar) : Native (.scalar s)
  | list {items : List Value} : (∀ v ∈ items, Native v) → Native (.list items)
  | empty (c : TableCodec) : Native (.group (Record.empty c))
  | read {c : TableCodec} {bytes : Bytes} {r : Record} {m : IdMap Value} :
      Record.ofBytes c bytes = .ok r → r.values = .ok m →
      (∀ i v, m.find? i = some v → Native v) → c.encode m = .ok bytes → Native (.group r)
  | edit {r r' : Record} {e : Record.Edit} : Native (.group r) →
      (∀ id v, e.sets? r.table = some (id, v) → Native v) → e.Fits Operator.Binds r.codec →
      e.apply r = .ok r' → Native (.group r')

/-- What codecs of valid tables have in common, when they are compiled with one size limit. -/
structure TableCodec.Regular (limit : Nat) (c : TableCodec) : Prop where
  serves : c.Serves
  sound : c.Sound limit
  limit_eq : c.limits.maxRecordSize = limit

namespace Record

/-- The buffer, if there is one, is one that the record's codec wrote. -/
structure Homemade (r : Record) : Prop where
  steady : Steady r.codec r
  owns : ∀ b, r.buffer = some b → r.codec.Owns b
  wrote : ∀ b, r.buffer = some b → r.codec.Wrote b

theorem Homemade.own {r : Record} (h : r.Homemade) : r.Own := fun _ => h.wrote

theorem homemade_backed {c : TableCodec} {b : RecordBuffer} (owns : c.Owns b)
    (wrote : c.Wrote b) : (Record.backed c b).Homemade where
  steady := steady_of_no_pending rfl rfl
  owns _ same := by
    cases same
    exact owns
  wrote _ same := by
    cases same
    exact wrote

theorem lasting_homemade : Lasting Homemade where
  wrote := homemade_backed
  kept homemade buffer := homemade_backed (homemade.owns _ buffer) (homemade.wrote _ buffer)

variable {limit : Nat} {c : TableCodec} {r r' : Record} {m : IdMap Value} {b : RecordBuffer}
  {M M' : PartialMap}

/-- A change keeps the codec, and leaves the buffer alone or writes it. -/
theorem Edit.buffer_cases {e : Edit} (done : e.apply r = .ok r') : r'.codec = r.codec ∧
    (r'.buffer = r.buffer ∨
      r.isDirty = true ∧ ∃ b, r.toBytes = .ok b.bytes ∧ r'.buffer = some b) := by
  cases e with
  | set f v =>
      obtain ⟨own, op, -, -, -, -, rfl⟩ := set_eq_ok_iff.mp done
      exact ⟨rfl, .inl rfl⟩
  | setName name v =>
      obtain ⟨own, -, done⟩ := bind_eq_ok_iff.mp done
      obtain ⟨own, op, -, -, -, -, rfl⟩ := set_eq_ok_iff.mp done
      exact ⟨rfl, .inl rfl⟩
  | clear f =>
      obtain ⟨own, -, -, -, rfl⟩ := clear_eq_ok_iff.mp done
      exact ⟨rfl, .inl rfl⟩
  | finish =>
      rcases finish_cases done with rfl | ⟨dirty, b, written, -, rfl⟩
      · exact ⟨rfl, .inl rfl⟩
      · exact ⟨rfl, .inr ⟨dirty, b, written, rfl⟩⟩

/-- What is written of a record with changes is a buffer that its codec wrote. -/
theorem Tracks.wrote (h : Tracks Homemade c r M)
    (sound : c.Everywhere (TableCodec.Sound c.limits.maxRecordSize)) (dirty : r.isDirty = true)
    (written : r.toBytes = .ok b.bytes) : c.Wrote b := by
  obtain ⟨rfl, -, -, m, read, holds, -⟩ := h
  rw [toBytes_eq_encode dirty read] at written
  obtain ⟨b', n, octets, restored⟩ := TableCodec.restored_of_encode lasting_homemade sound holds
    written (TableCodec.size_of_encode written)
  obtain rfl : b' = b := RecordBuffer.eq_of_bytes octets
  exact restored.wrote sound.here.distinct written

/-- The record keeps a map of values, and its buffer is one that its codec wrote. -/
def Followed (r : Record) : Prop := r.Homemade ∧ ∃ M, Tracks Homemade r.codec r M

theorem followed_empty (c : TableCodec) : (Record.empty c).Followed :=
  ⟨⟨steady_of_no_pending rfl rfl, nofun, nofun⟩, _, .empty c⟩

/-- A record that is followed stays homemade when it is changed. -/
theorem Homemade.edited (homemade : r.Homemade) (covers : r.codec.Covers)
    (h : Tracks Homemade r.codec r M) (next : Tracks Homemade r.codec r' M')
    (sound : r.codec.Everywhere (TableCodec.Sound r.codec.limits.maxRecordSize)) {e : Edit}
    (done : e.apply r = .ok r') : r'.Homemade where
  steady := by
    rw [next.codec]
    exact homemade.steady.edit covers done
  owns b buffer := by
    rw [next.codec]
    exact next.owns b buffer
  wrote b buffer := by
    rw [next.codec]
    rcases (Edit.buffer_cases done).2 with same | ⟨dirty, b', written, same⟩
    · rw [same] at buffer
      exact homemade.wrote b buffer
    · rw [same, Option.some.injEq] at buffer
      subst buffer
      exact h.wrote sound dirty written

end Record

/-- Equal values that fit one operator are congruent. -/
theorem Operator.Holds.congruent {limit : Nat} {op : Operator} {v w : Value}
    (inside : op.Everywhere (TableCodec.Regular limit)) (h : op.Holds Record.Homemade v)
    (h' : op.Holds Record.Homemade w) (equal : Equal v w) : v.Congruent w := by
  refine ⟨equal, ?_⟩
  induction h generalizing w with
  | fixed | string | binary =>
      cases equal
      exact .scalar _
  | list _ ih =>
      cases h' with
      | list holds' =>
          cases equal with
          | list length each =>
              refine .list length fun i x y hx hy => ?_
              exact ih x (List.mem_of_getElem? hx) inside.element
                (holds' y (List.mem_of_getElem? hy)) (each i x y hx hy)
  | @group r m homemade read _ _ ih =>
      have here : r.codec.Everywhere (TableCodec.Regular limit) := inside
      have covers := here.here.serves.covers
      obtain ⟨s, n, rfl, codec, homemade', read', -, holds'⟩ := h'.exists_record
      obtain ⟨_, _, hm, hn, maps⟩ := equal.exists_maps
      rw [read, Except.ok.injEq] at hm
      rw [read', Except.ok.injEq] at hn
      subst hm hn
      refine .group ⟨codec.symm, homemade.own, homemade'.own⟩ read read' fun i v w hv hw => ?_
      -- Values have the numbers of stored fields, so a slot ties them to one operator.
      obtain ⟨f, hf, rfl⟩ := homemade.steady.exists_field covers read hv
      obtain ⟨t, slot, -⟩ := covers.slot f hf
      exact ih _ v t hv slot (here.slot (TableCodec.mem_of_slot? slot)) (holds' _ w t hw slot)
        (maps.values _ v w hv hw)

namespace TableCodec

variable {limit : Nat} {c : TableCodec} {m : IdMap Value} {b : RecordBuffer}

/-- A buffer of values that the codec writes has the fields that it knows. -/
theorem owns_of_encode (sound : c.Sound limit) (encoded : c.encode m = .ok b.bytes)
    (complete : c.checkBuffer b = .ok ()) : c.Owns b where
  known id present := by
    obtain ⟨admits, _, blocks, out⟩ := laidOut_of_encode sound encoded
    exact admits.known id ((out.mem_fieldIds admits).mp present)
  complete := complete
  small := size_of_encode encoded

theorem Regular.everywhere_sound (inside : c.Everywhere (Regular limit)) :
    c.Everywhere (Sound c.limits.maxRecordSize) := by
  rw [inside.here.limit_eq]
  exact inside.imp fun _ regular => regular.sound

/-- A record over octets that its codec writes again is followed, if its values are their codecs'
own. -/
theorem followed_backed (inside : c.Everywhere (Regular limit))
    (complete : c.checkBuffer b = .ok ()) (decoded : c.decodeAll b = .ok m)
    (encoded : c.encode m = .ok b.bytes)
    (each : ∀ i v, m.find? i = some v → ∀ op : Operator, op.Everywhere (Regular limit) →
      op.accepts v = true → op.Binds v → op.Holds Record.Homemade v) :
    (Record.backed c b).Followed := by
  have sound := inside.here.sound
  have owns := owns_of_encode sound encoded complete
  have admits := (encode_eq_ok_iff.mp encoded).1
  have holds : c.HoldsAll Record.Homemade m := by
    intro i v s found slot
    obtain ⟨hs, rfl⟩ := (slot?_eq_some_iff sound.distinct).mp slot
    obtain ⟨t, offset, slot', -, read⟩ := (find?_of_decodeAll decoded).mp found
    rw [slot, Option.some.injEq] at slot'
    subst slot'
    obtain ⟨span, -, inner⟩ := bind_eq_ok_iff.mp read
    exact each _ v found _ (inside.slot hs) (admits.accepted s hs v found)
      (Operator.binds_of_decode inner)
  have readable : ∀ i v, m.find? i = some v → Value.Readable v := by
    intro i v found
    obtain ⟨s, slot⟩ := Option.isSome_iff_exists.mp (admits.known i (IdMap.mem_ids_of_find? found))
    exact (holds i v s found slot).readable
  exact ⟨Record.homemade_backed owns ⟨m, decoded, encoded⟩, m.find?,
    .backed decoded holds (EqualMaps.refl readable).rel owns⟩

/-- A followed record is one of the operator's own codec where that accepts it. -/
theorem holds_of_followed {op : Operator} {r : Record}
    (followed : r.codec.Everywhere (Regular limit) → r.Followed)
    (inside : op.Everywhere (Regular limit)) (accepted : op.accepts (.group r) = true)
    (binds : op.Binds (.group r)) : op.Holds Record.Homemade (.group r) := by
  cases op with
  | group codec =>
      obtain rfl : r.codec = codec := binds
      obtain ⟨homemade, M, tracks⟩ := followed inside
      exact tracks.holds homemade
  | fixed | string | binary | list => simp [Operator.accepts] at accepted

/-- A followed record stays followed when values are set that are their codecs' own. -/
theorem followed_edit {r r' : Record} {e : Record.Edit} (followed : r.Followed)
    (inside : r.codec.Everywhere (Regular limit)) (binds : e.Fits Operator.Binds r.codec)
    (done : e.apply r = .ok r')
    (each : ∀ id v, e.sets? r.table = some (id, v) → ∀ op : Operator,
      op.Everywhere (Regular limit) → op.accepts v = true → op.Binds v →
        op.Holds Record.Homemade v) : r'.Followed := by
  obtain ⟨homemade, M, tracks⟩ := followed
  have fitting : e.Fits (fun op v => op.accepts v = true → op.Holds Record.Homemade v)
      r.codec := by
    intro id v op sets known accepted
    rcases Option.map_eq_some_iff.mp known with ⟨s, slot, rfl⟩
    exact each id v sets _ (inside.slot (mem_of_slot? slot)) accepted (binds id v _ sets known)
  have sound := Regular.everywhere_sound inside
  have next := tracks.edited inside.here.serves Record.lasting_homemade sound fitting done
  have kept := homemade.edited inside.here.serves.covers tracks next sound done
  rw [← next.codec] at next
  exact ⟨kept, _, next⟩

/-- **Native values are their codecs' own**: a native record keeps a map of values, and where an
operator accepts a native value, the records inside are those that the operator is for. -/
theorem holds_of_native {v : Value} (native : v.Native) :
    (∀ r, v = .group r → r.codec.Everywhere (Regular limit) → r.Followed) ∧
    ∀ op : Operator, op.Everywhere (Regular limit) → op.accepts v = true → op.Binds v →
      op.Holds Record.Homemade v := by
  have record : ∀ r : Record, (r.codec.Everywhere (Regular limit) → r.Followed) →
      (∀ s, Value.group r = .group s → s.codec.Everywhere (Regular limit) → s.Followed) ∧
      ∀ op : Operator, op.Everywhere (Regular limit) → op.accepts (.group r) = true →
        op.Binds (.group r) → op.Holds Record.Homemade (.group r) := by
    intro r followed
    refine ⟨?_, fun op => holds_of_followed followed⟩
    rintro _ ⟨rfl⟩
    exact followed
  induction native with
  | scalar s =>
      refine ⟨by simp, ?_⟩
      intro op _ accepted _
      cases op with
      | fixed kind bound => exact .fixed kind bound s
      | string => exact .string s
      | binary => exact .binary s
      | group | list => simp [Operator.accepts] at accepted
  | list _ ih =>
      refine ⟨by simp, ?_⟩
      intro op inside accepted binds
      cases inside with
      | list inside =>
          rw [Operator.accepts, Bool.and_eq_true, List.all_eq_true] at accepted
          exact .list fun x hx => (ih x hx).2 _ inside (accepted.2 x hx) (binds x hx)
      | fixed | string | binary | group => simp [Operator.accepts] at accepted
  | empty c => exact record _ fun _ => Record.followed_empty c
  | read read values _ encoded ih =>
      obtain ⟨b, rfl, -, complete, rfl⟩ := Record.ofBytes_eq_ok_iff.mp read
      have decoded := (Record.values_backed _ b).symm.trans values
      exact record _ fun inside =>
        followed_backed inside complete decoded encoded fun i v found => (ih i v found).2
  | edit _ _ binds done ih values =>
      refine record _ fun inside => ?_
      rw [(Record.Edit.buffer_cases done).1] at inside
      exact followed_edit (ih.1 _ rfl inside) inside binds done fun id v sets =>
        (values id v sets).2

/-- Native values, those in groups of the groups' own codecs. -/
def Natives (c : TableCodec) (m : IdMap Value) : Prop :=
  ∀ i v s, m.find? i = some v → c.slot? i = some s → v.Native ∧ s.operator.Binds v

/-- What holds of all native values that operators accept. -/
theorem Natives.holdsAll (natives : c.Natives m) (inside : c.Everywhere (Regular limit))
    (admits : c.Admits m) : c.HoldsAll Record.Homemade m := by
  intro i v s found slot
  obtain ⟨native, binds⟩ := natives i v s found slot
  obtain ⟨hs, rfl⟩ := (slot?_eq_some_iff inside.here.sound.distinct).mp slot
  exact (holds_of_native native).2 _ (inside.slot hs) (admits.accepted s hs v found) binds

/-- A native record whose next field is set. -/
theorem native_set {r : Record} {s : Slot} {v : Value} (serves : r.codec.Serves)
    (native : (Value.group r).Native) (slot : r.codec.slot? s.field.id = some s)
    (accepted : s.operator.accepts v = true) (inner : v.Native) (binds : s.operator.Binds v) :
    (Value.group (r.staging s.field.id v)).Native := by
  have stored := serves.stored s (mem_of_slot? slot)
  have operator : r.codec.operator? s.field.id = some s.operator := by rw [operator?, slot]; rfl
  have done : (Record.Edit.set s.field v).apply r = .ok (r.staging s.field.id v) :=
    Record.set_eq_ok_iff.mpr ⟨s.field, s.operator, serves.resolves _ (List.mem_filter.mp stored).1,
      isDerived_of_mem_storedFields stored, operator, accepted, rfl⟩
  refine .edit native ?_ ?_ done
  · rintro _ _ ⟨⟩
    exact inner
  · rintro _ _ op ⟨⟩ known
    rw [operator, Option.some.injEq] at known
    exact known ▸ binds

/-- A map that can be written is that of a new record whose fields were set one after another. -/
theorem exists_native (serves : c.Serves) (distinct : c.DistinctIds) (sorted : IdMap.Sorted m)
    (admits : c.Admits m) (natives : c.Natives m) :
    ∃ r, (Value.group r).Native ∧ r.codec = c ∧ r.isDirty = true ∧ r.values = .ok m := by
  have each : ∀ entries : IdMap Value, entries.ids.Nodup → entries ⊆ m →
      ∃ r k, (Value.group r).Native ∧ r.codec = c ∧ r.buffer = none ∧ IdMap.Sorted r.pending ∧
        r.values = .ok k ∧ k.find? = entries.find? := by
    intro entries nodup sub
    induction entries with
    | nil => exact ⟨Record.empty c, [], .empty c, rfl, rfl, IdMap.sorted_nil, rfl, rfl⟩
    | cons e rest ih =>
        obtain ⟨i, v⟩ := e
        obtain ⟨here, sub⟩ := List.cons_subset.mp sub
        obtain ⟨r, k, native, rfl, buffer, staged, read, found⟩ :=
          ih (List.nodup_cons.mp nodup).2 sub
        have value := (IdMap.find?_eq_some_iff sorted.nodup).mpr here
        obtain ⟨s, slot⟩ := Option.isSome_iff_exists.mp
          (admits.known i (IdMap.mem_ids_of_find? value))
        obtain ⟨hs, rfl⟩ := (slot?_eq_some_iff distinct).mp slot
        obtain ⟨inner, binds⟩ := natives _ v s value slot
        obtain ⟨k', read', found'⟩ := Record.values_staging (v := v) staged read s.field.id
        refine ⟨r.staging s.field.id v, k',
          native_set serves native slot (admits.accepted s hs v value) inner binds, rfl, buffer,
          Record.sorted_staging staged _, read', ?_⟩
        ext1 j
        rw [found', found, IdMap.find?_cons, Function.update_apply]
        simp only [eq_comm]
  obtain ⟨r, k, native, codec, buffer, -, read, found⟩ :=
    each m sorted.nodup (List.Subset.refl m)
  obtain rfl := (Record.sorted_of_values read).eq_of_find? sorted found
  exact ⟨r, native, codec, by simp [Record.isDirty, buffer], read⟩

/-- Equal values have one written form. -/
structure Canonical (c : TableCodec) : Prop where
  records : ∀ r s bytes bytes', r.codec = c → (Value.group r).Congruent (.group s) →
    r.toBytes = .ok bytes → s.toBytes = .ok bytes' → bytes = bytes'
  maps : ∀ m n bytes bytes', IdMap.Agree Value.Congruent m n → c.encode m = .ok bytes →
    c.encode n = .ok bytes' → bytes = bytes'
  /-- Whatever they went through, equal native records are congruent. -/
  native : ∀ r s : Record, r.codec = c → s.codec = c → (Value.group r).Native →
    (Value.group s).Native → Equal (.group r) (.group s) → (Value.group r).Congruent (.group s)
  natives : ∀ m n, c.Natives m → c.Natives n → c.Admits m → c.Admits n → EqualMaps m n →
    IdMap.Agree Value.Congruent m n
  /-- Octets that were read are those of every equal native record exactly if they are what the
  codec writes. -/
  octets : ∀ bytes r m out, Record.ofBytes c bytes = .ok r → r.values = .ok m → c.Natives m →
    c.encode m = .ok out → ((∀ s bytes', s.codec = c → (Value.group s).Native →
      Equal (.group r) (.group s) → s.toBytes = .ok bytes' → bytes' = bytes) ↔ out = bytes)

section

variable (inside : c.Everywhere (Regular limit))

include inside

theorem congruent_of_native {r s : Record} (codec : r.codec = c) (codec' : s.codec = c)
    (native : (Value.group r).Native) (native' : (Value.group s).Native)
    (equal : Equal (.group r) (.group s)) : (Value.group r).Congruent (.group s) := by
  subst codec
  obtain ⟨homemade, M, tracks⟩ := (holds_of_native native).1 r rfl inside
  obtain ⟨homemade', M', tracks'⟩ := (holds_of_native native').1 s rfl (codec' ▸ inside)
  have holds' := tracks'.holds homemade'
  rw [codec'] at holds'
  exact (tracks.holds homemade).congruent inside holds' equal

theorem congruent_of_natives {n : IdMap Value} (natives : c.Natives m) (natives' : c.Natives n)
    (admits : c.Admits m) (admits' : c.Admits n) (equal : EqualMaps m n) :
    IdMap.Agree Value.Congruent m n where
  ids := equal.ids
  values i v w hv hw := by
    obtain ⟨s, slot⟩ := Option.isSome_iff_exists.mp (admits.known i (IdMap.mem_ids_of_find? hv))
    exact (natives.holdsAll inside admits i v s hv slot).congruent (inside.slot (mem_of_slot? slot))
      (natives'.holdsAll inside admits' i w s hw slot) (equal.values i v w hv hw)

/-- Octets that are those of equal native records. -/
theorem same_octets_iff {bytes out : Bytes} {r : Record} (read : Record.ofBytes c bytes = .ok r)
    (values : r.values = .ok m) (natives : c.Natives m) (encoded : c.encode m = .ok out) :
    (∀ s bytes', s.codec = c → (Value.group s).Native → Equal (.group r) (.group s) →
      s.toBytes = .ok bytes' → bytes' = bytes) ↔ out = bytes := by
  have admits := (encode_eq_ok_iff.mp encoded).1
  have slots : ∀ i v, m.find? i = some v → ∃ s, c.slot? i = some s := fun i v found =>
    Option.isSome_iff_exists.mp (admits.known i (IdMap.mem_ids_of_find? found))
  obtain ⟨b, rfl, -, -, rfl⟩ := Record.ofBytes_eq_ok_iff.mp read
  constructor
  · intro unique
    obtain ⟨s, native, rfl, dirty, values'⟩ := exists_native inside.here.serves
      inside.here.sound.distinct (Record.sorted_of_values values) admits natives
    refine unique s out rfl native (.of_maps rfl values values' (.refl fun i v found => ?_)) ?_
    · obtain ⟨t, slot⟩ := slots i v found
      exact (natives.holdsAll inside admits i v t found slot).readable
    · exact (Record.toBytes_eq_encode dirty values').trans encoded
  · rintro rfl s bytes' codec native equal written
    have own : (Value.group (Record.backed c b)).Native := by
      refine .read read values (fun i v found => ?_) encoded
      obtain ⟨t, slot⟩ := slots i v found
      exact (natives i v t found slot).1
    exact (Record.eq_of_toBytes (congruent_of_native inside rfl codec own native equal)
      (Record.toBytes_of_clean rfl rfl) written).symm

end

theorem canonical_of_regular (inside : c.Everywhere (Regular limit)) : c.Canonical where
  records _ _ _ _ _ := Record.eq_of_toBytes
  maps _ _ _ _ agree encoded encoded' :=
    eq_of_encode agree (fun _ _ => Value.Congruent.samePayload) encoded encoded'
  native _ _ := congruent_of_native inside
  natives _ _ := congruent_of_natives inside
  octets _ _ _ _ := same_octets_iff inside

theorem regular_of_givesCodec {limits : Limits} {t : Table}
    (given : Registry.GivesCodec limits (fun _ => True) t c)
    (valid : c.Everywhere fun d => d.table.Valid) :
    c.Everywhere (Regular limits.maxRecordSize) :=
  ((given.compiled nestedIn_true).inside.and valid).imp fun d both =>
    ⟨both.1.serves both.2, both.1.sound both.2.numbered, by rw [both.1.limits_eq]⟩

/-- **The written form is canonical**, but for octets from elsewhere. -/
theorem canonical_of_givesCodec {limits : Limits} {t : Table}
    (given : Registry.GivesCodec limits (fun _ => True) t c)
    (valid : c.Everywhere fun d => d.table.Valid) : c.Canonical :=
  canonical_of_regular (regular_of_givesCodec given valid)

end TableCodec

namespace Household

theorem native_place : (Value.group place).Native := by
  have zip : Record.Edit.apply (Record.empty addressCodec) (.set zip (.scalar (.int32 75011))) =
      .ok place := rfl
  refine .edit (.empty addressCodec) ?_ ?_ zip
  · rintro _ _ ⟨⟩
    exact .scalar _
  · rintro _ _ _ ⟨⟩ ⟨⟩
    exact trivial

theorem natives_values : personCodec.Natives values := by
  intro i v s found slot
  have mem := IdMap.mem_of_find? found
  simp only [values, List.mem_cons, List.not_mem_nil, or_false] at mem
  rcases mem with ⟨rfl, rfl⟩ | ⟨rfl, rfl⟩ | ⟨rfl, rfl⟩ <;> cases slot
  · exact ⟨native_place, rfl⟩
  · exact ⟨.scalar _, trivial⟩
  · exact ⟨.list fun v hv => List.mem_singleton.mp hv ▸ .scalar _, fun _ _ => trivial⟩

/-- A person is the same octets before it is finished and after. -/
theorem canonical_values : ∃ (r s : Record) (bytes : Bytes), r.values = .ok values ∧
    r.finish = .ok s ∧ r.toBytes = .ok bytes ∧ s.toBytes = .ok bytes := by
  have valid : personCodec.Everywhere fun d => d.table.Valid :=
    everywhere_person valid_person valid_address
  have regular := TableCodec.regular_of_givesCodec (givesCodec_person trivial) valid
  obtain ⟨bytes, encoded⟩ := encode_values
  obtain ⟨r, native, codec, dirty, read⟩ := TableCodec.exists_native regular.here.serves
    (by decide) sorted_values (TableCodec.encode_eq_ok_iff.mp encoded).1 natives_values
  rw [← codec] at regular encoded
  obtain ⟨s, finished⟩ := (Record.exists_finish_iff regular.here.sound dirty read).mpr ⟨_, encoded⟩
  have native' : (Value.group s).Native := .edit (e := .finish) native nofun nofun finished
  obtain ⟨homemade, M, tracks⟩ := (TableCodec.holds_of_native native).1 r rfl regular
  have sound := TableCodec.Regular.everywhere_sound regular
  have next := tracks.finish Record.lasting_homemade sound finished
  have written : r.toBytes = .ok bytes := (Record.toBytes_eq_encode dirty read).trans encoded
  obtain ⟨bytes', written'⟩ : ∃ bytes', s.toBytes = .ok bytes' := by
    rcases Record.finish_cases finished with rfl | ⟨-, b, -, -, rfl⟩
    · exact ⟨_, written⟩
    · exact ⟨_, Record.toBytes_of_clean rfl rfl⟩
  have canonical := TableCodec.canonical_of_givesCodec (givesCodec_person trivial) valid
  have congruent := canonical.native r s codec (next.codec.trans codec) native native'
    (tracks.equal next)
  have same := canonical.records r s bytes bytes' codec congruent written written'
  exact ⟨r, s, bytes, read, finished, written, same ▸ written'⟩

/-- An address that was written for another version of the table. -/
def foreign : RecordBuffer where
  bytes := [0, 0, 0, 18, 0, 2, 0, 1, 0, 1, 0, 0, 0, 14, 0, 1, 37, 3].toByteArray
  consistent := by decide +kernel

/-- Equal addresses that are different octets, and so are the persons that live there. -/
theorem not_canonical_of_equal : Registry.GivesCodec limits (fun _ => True) person personCodec ∧
    personCodec.Everywhere (fun d => d.table.Valid) ∧
    ∃ (r s : Record) (x y p q : Bytes), Record.Reached addressCodec r ∧
      Record.Reached addressCodec s ∧ Equal (.group r) (.group s) ∧
      r.toBytes = .ok x ∧ s.toBytes = .ok y ∧ x ≠ y ∧
      EqualMaps [(1, .group r), (2, .scalar (.int32 7))] [(1, .group s), (2, .scalar (.int32 7))] ∧
      personCodec.encode [(1, .group r), (2, .scalar (.int32 7))] = .ok p ∧
      personCodec.encode [(1, .group s), (2, .scalar (.int32 7))] = .ok q ∧ p ≠ q := by
  have read : Record.ofBytes addressCodec foreign.bytes =
      .ok (Record.backed addressCodec foreign) := by cbv
  have equal : Equal (.group (Record.backed addressCodec foreign)) (.group place) := by
    have read : (Record.backed addressCodec foreign).values =
        .ok [(1, .scalar (.int32 75011))] := by cbv
    refine .of_maps rfl read rfl (.refl fun i v found => ?_)
    rw [List.mem_singleton.mp (IdMap.mem_of_find? found) |> Prod.mk.inj |>.2]
    exact .scalar _
  refine ⟨givesCodec_person trivial, everywhere_person valid_person valid_address,
    Record.backed addressCodec foreign, place, foreign.bytes,
    [0, 0, 0, 18, 0, 1, 0, 1, 0, 1, 0, 0, 0, 14, 0, 1, 37, 3].toByteArray, _, _, .ofBytes read,
    .edit (.set zip (.scalar (.int32 75011))) .empty rfl, equal, by cbv, by cbv, by decide,
    IdMap.agree_of_forall₂ (.cons ⟨rfl, equal⟩ (.cons ⟨rfl, .scalar _⟩ .nil)), by cbv, by cbv,
    by decide⟩

end Household

end RecordFormat
