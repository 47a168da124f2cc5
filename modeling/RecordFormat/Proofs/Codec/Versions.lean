import RecordFormat.Proofs.Codec.Fields
import RecordFormat.Proofs.Codec.RoundTrip

/-!
# Reading with another codec

Octets that one codec made can be read through another one, which takes what it knows and skips
the rest. `Operator.Paired` relates a writing operator with a reading one, `Value.Linked` the
values that they read from the same octets: records with values under the numbers that both
know, and these linked again (`Operator.decode_paired`).
-/

namespace RecordFormat

open Outcome
open Value (Equal EqualMaps Readable)

/-- What the second operator reads is written like what the first one writes, and so it is under
numbers that the codecs of groups share; `R` holds of these codecs. -/
inductive Operator.Paired (R : TableCodec → TableCodec → Prop) : Operator → Operator → Prop
  | fixed (kind : FixedKind) (limit limit' : Binary64) :
      Paired R (.fixed kind limit) (.fixed kind limit')
  | string : Paired R .string .string
  | binary : Paired R .binary .binary
  | list {element element' : Operator} {maxElements : Nat} : Paired R element element' →
      Paired R (.list element maxElements) (.list element' maxElements)
  | group {c d : TableCodec} : R c d →
      (∀ id s s', c.slot? id = some s → d.slot? id = some s' → Paired R s.operator s'.operator) →
      Paired R (.group c) (.group d)

/-- The same up to records, which are related by `Q` and have values that are linked again
wherever both have one. -/
inductive Value.Linked (Q : Record → Record → Prop) : Value → Value → Prop
  | scalar (s : Scalar) : Linked Q (.scalar s) (.scalar s)
  | list {xs ys : List Value} : xs.length = ys.length →
      (∀ (i : Nat) x y, xs[i]? = some x → ys[i]? = some y → Linked Q x y) →
      Linked Q (.list xs) (.list ys)
  | group {r s : Record} {m n : IdMap Value} : Q r s → r.values = .ok m → s.values = .ok n →
      (∀ i v w, m.find? i = some v → n.find? i = some w → Linked Q v w) →
      Linked Q (.group r) (.group s)

namespace Value.Linked

variable {Q Q' : Record → Record → Prop} {v w : Value}

theorem imp (h : Linked Q v w) (imp : ∀ r s, Q r s → Q' r s) : Linked Q' v w := by
  induction h with
  | scalar s => exact .scalar s
  | list length _ ih => exact .list length ih
  | group here hr hs _ ih => exact .group (imp _ _ here) hr hs ih

/-- Values are equal when all records inside have the same table and the same numbers. -/
theorem equal (h : Linked Q v w) (same : ∀ r s m n, Q r s → r.values = .ok m → s.values = .ok n →
    r.codec.table.name = s.codec.table.name ∧ m.ids = n.ids) : Equal v w := by
  induction h with
  | scalar s => exact .scalar s
  | list length _ ih => exact .list length ih
  | group here hr hs _ ih =>
      obtain ⟨name, ids⟩ := same _ _ _ _ here hr hs
      exact .group name hr hs ids ih

/-- Records that are linked can be read at every depth. -/
theorem and_values (h : Linked Q v w) :
    Linked (fun r s => Q r s ∧ ∃ m n, r.values = .ok m ∧ s.values = .ok n) v w := by
  induction h with
  | scalar s => exact .scalar s
  | list length _ ih => exact .list length ih
  | group here hr hs _ ih => exact .group ⟨here, _, _, hr, hs⟩ hr hs ih

/-- Records that are linked and equal are so at every depth. -/
theorem and_equal (h : Linked Q v w) (equal : Equal v w) :
    Linked (fun r s => Q r s ∧ Equal (.group r) (.group s)) v w := by
  induction h with
  | scalar s => exact .scalar s
  | list length _ ih =>
      cases equal with
      | list _ each => exact .list length fun i x y hx hy => ih i x y hx hy (each i x y hx hy)
  | @group r s m n here hr hs _ ih =>
      refine .group ⟨here, equal⟩ hr hs ?_
      intro i v w hv hw
      obtain ⟨m', n', hr', hs', maps⟩ := equal.exists_maps
      rw [hr, Except.ok.injEq] at hr'
      rw [hs, Except.ok.injEq] at hs'
      subst hr' hs'
      exact ih i v w hv hw (maps.values i v w hv hw)

end Value.Linked

namespace Operator

variable {R : TableCodec → TableCodec → Prop} {P P' : Record → Prop} {op op' : Operator}
  {v w : Value}

/-- What a group operator holds. -/
theorem Holds.exists_record {codec : TableCodec} (h : (Operator.group codec).Holds P v) :
    ∃ r m, v = .group r ∧ r.codec = codec ∧ P r ∧ r.values = .ok m ∧
      (∀ i v, m.find? i = some v → Readable v) ∧ codec.HoldsAll P m := by
  cases h with
  | group here read inside holds => exact ⟨_, _, rfl, rfl, here, read, inside, holds⟩

/-- What is linked to a value is linked to an equal one that has records of the same codecs. -/
theorem Holds.linked_of_equal {Q Q' : Record → Record → Prop} {v' : Value} (h : op.Holds P v)
    (h' : op.Holds P' v') (equal : Equal v v') (linked : v'.Linked Q w)
    (known : ∀ r s m, Q r s → r.values = .ok m → ∀ id ∈ m.ids, (r.codec.slot? id).isSome)
    (imp : ∀ r r' s, P r → r'.codec = r.codec → Equal (.group r) (.group r') → Q r' s → Q' r s) :
    v.Linked Q' w := by
  induction h generalizing v' w with
  | fixed | string | binary =>
      cases equal
      cases linked
      exact .scalar _
  | @list element _ items _ ih =>
      cases equal with
      | @list _ items' length each =>
          cases linked with
          | list length' linked =>
              refine .list (length.trans length') ?_
              intro i x z hx hz
              have bound : i < items'.length := by
                rw [length']
                exact (List.getElem?_eq_some_iff.mp hz).1
              have hy := List.getElem?_eq_getElem bound
              cases h' with
              | list inside =>
                  exact ih x (List.mem_of_getElem? hx) (inside _ (List.mem_of_getElem? hy))
                    (each i x _ hx hy) (linked i _ z hy hz)
  | @group r m here read inside _ ih =>
      obtain ⟨r', m', rfl, codec, -, read', -, holds'⟩ := h'.exists_record
      obtain ⟨m₁, m₂, hm, hm', maps⟩ := equal.exists_maps
      rw [read, Except.ok.injEq] at hm
      rw [read', Except.ok.injEq] at hm'
      subst hm hm'
      cases linked with
      | @group _ s _ n here' again hs linked =>
          rw [read', Except.ok.injEq] at again
          subst again
          refine .group (imp _ _ _ here codec equal here') read hs ?_
          intro i x z hx hz
          obtain ⟨y, hy, same⟩ := maps.exists_right hx
          -- Both records are of one codec, whose slot ties the two values to one operator.
          obtain ⟨slot, found⟩ := Option.isSome_iff_exists.mp
            (known _ _ _ here' read' i (IdMap.mem_ids_of_find? hy))
          rw [codec] at found
          exact ih i x slot hx found (holds' i y slot hy found) same (linked i y z hy hz)

/-! ## Reading the same octets -/

namespace Paired

theorem width?_eq (h : op.Paired R op') : op'.width? = op.width? := by
  cases h <;> rfl

/-- Either operator may be the writer's. -/
theorem flip (h : op.Paired R op') : op'.Paired (fun d c => R c d) op := by
  induction h with
  | fixed kind limit limit' => exact .fixed kind limit' limit
  | string => exact .string
  | binary => exact .binary
  | list _ ih => exact .list ih
  | group related _ ih => exact .group related fun id s s' slot slot' => ih id s' s slot' slot

/-- What is true of every codec inside the first operator is so of the pairs. -/
theorem and_left (h : op.Paired R op') {P : TableCodec → Prop} (all : op.Everywhere P) :
    op.Paired (fun c d => R c d ∧ P c) op' := by
  induction h with
  | fixed kind limit limit' => exact .fixed kind limit limit'
  | string => exact .string
  | binary => exact .binary
  | list _ ih => exact .list (ih all.element)
  | @group c d related _ ih =>
      have inside : c.Everywhere P := all
      refine .group ⟨related, inside.here⟩ fun id s s' slot slot' => ?_
      exact ih id s s' slot slot' (inside.slot (TableCodec.mem_of_slot? slot))

theorem lengthWidth_eq (h : op.Paired R op') : op'.lengthWidth = op.lengthWidth := by
  cases h <;> rfl

theorem elementCount_eq (h : op.Paired R op') : op'.elementCount = op.elementCount := by
  funext maxElements bytes offset length
  rw [elementCount, elementCount, h.width?_eq]

theorem elementSpan_eq (h : op.Paired R op') : op'.elementSpan = op.elementSpan := by
  funext bytes offset length count index
  rw [elementSpan, elementSpan, h.width?_eq, h.lengthWidth_eq]

theorem checkFilled_eq (h : op.Paired R op') : op'.checkFilled = op.checkFilled := by
  funext count length
  rw [checkFilled, checkFilled, h.width?_eq]

end Paired

end Operator

/-- Where the reader's operator is paired with the writer's, payloads are at the same places. -/
theorem Slot.span_paired {R : TableCodec → TableCodec → Prop} {s s' : Slot} {b : RecordBuffer}
    {offset : Nat} {place : Nat × Nat} (paired : s.operator.Paired R s'.operator)
    (h : s.span b offset = .ok place) : s'.span b offset = .ok place := by
  unfold span at h ⊢
  rw [paired.width?_eq, paired.lengthWidth_eq]
  cases width : s.operator.width? with
  | some width' =>
      rw [width] at h
      exact h
  | none =>
      rw [width] at h
      simp only [bind_eq_ok_iff, refuseIf_eq_ok_iff] at h ⊢
      exact h

/-- Whatever buffer the writer's codec takes, the reader's takes as well. -/
def TableCodec.OpenedBy (c d : TableCodec) : Prop :=
  ∀ b : RecordBuffer, b.size ≤ c.limits.maxRecordSize → c.checkBuffer b = .ok () →
    b.size ≤ d.limits.maxRecordSize ∧ d.checkBuffer b = .ok ()

/-- The second record reads through its codec what the first one reads through its own. -/
structure Record.Paired (R : TableCodec → TableCodec → Prop) (r s : Record) : Prop where
  codecs : R r.codec s.codec
  known : ∀ m, r.values = .ok m → ∀ id ∈ m.ids, (r.codec.slot? id).isSome
  staged : s.pending = []
  shared : ∀ m n, r.values = .ok m → s.values = .ok n → ∀ id,
    id ∈ n.ids ↔ id ∈ m.ids ∧ (s.codec.slot? id).isSome

namespace TableCodec

variable {R : TableCodec → TableCodec → Prop} {c d : TableCodec} {b : RecordBuffer}
  {m : IdMap Value}

/-- Records over one buffer are linked when what both know is. -/
theorem linked_backed (related : R c d) (closed : ∀ id ∈ b.fieldIds, (c.slot? id).isSome)
    (decoded : c.decodeAll b = .ok m)
    (each : ∀ id s s' offset v, c.slot? id = some s → d.slot? id = some s' →
      s.read b offset = .ok v → m.find? id = some v →
        ∃ w, s'.read b offset = .ok w ∧ v.Linked (Record.Paired R) w) :
    (Value.group (Record.backed c b)).Linked (Record.Paired R) (.group (Record.backed d b)) := by
  -- A field that the reader finds is known to the writer, for the buffer is closed.
  have both : ∀ id s' offset, d.slot? id = some s' → b.locate? id = some offset →
      ∃ v w, m.find? id = some v ∧ s'.read b offset = .ok w ∧ v.Linked (Record.Paired R) w := by
    intro id s' offset slot' found
    have present : id ∈ b.fieldIds := by
      rw [← RecordBuffer.contains_iff, RecordBuffer.contains, found]
      rfl
    obtain ⟨s, slot⟩ := Option.isSome_iff_exists.mp (closed id present)
    obtain ⟨v, value, read⟩ := exists_of_locate? decoded slot found
    obtain ⟨w, read', linked⟩ := each id s s' offset v slot slot' read value
    exact ⟨v, w, value, read', linked⟩
  obtain ⟨n, decoded'⟩ := exists_decodeAll fun id s' offset slot' found => by
    obtain ⟨v, w, -, read', -⟩ := both id s' offset slot' found
    exact ⟨w, read'⟩
  refine .group ⟨related, ?_, rfl, ?_⟩ ((Record.values_backed c b).trans decoded)
    ((Record.values_backed d b).trans decoded') ?_
  · intro m' again id present
    rw [Record.values_backed] at again
    exact ((mem_ids_of_decodeAll again).mp present).1
  · intro m' n' again again' id
    rw [Record.values_backed] at again again'
    rw [mem_ids_of_decodeAll again, mem_ids_of_decodeAll again']
    constructor
    · rintro ⟨known, present⟩
      exact ⟨⟨closed id present, present⟩, known⟩
    · rintro ⟨⟨-, present⟩, known⟩
      exact ⟨known, present⟩
  · intro id v w value value'
    obtain ⟨s', offset, slot', found, read'⟩ := (find?_of_decodeAll decoded').mp value'
    obtain ⟨v', w', value'', read'', linked⟩ := both id s' offset slot' found
    rw [value, Option.some.injEq] at value''
    rw [read', Except.ok.injEq] at read''
    subst value'' read''
    exact linked

end TableCodec

namespace Operator

variable {R : TableCodec → TableCodec → Prop} {P : Record → Prop} {op op' : Operator}
  {v : Value}

/-- A list is read as a linked one when its elements are. -/
theorem decode_list_paired {Q : Record → Record → Prop} {element element' : Operator}
    {maxElements offset length : Nat} {bytes : Bytes} {items : List Value}
    (paired : element.Paired R element')
    (decoded : (list element maxElements).decode bytes offset length = .ok (.list items))
    (each : ∀ x ∈ items, ∀ offset length, element.decode bytes offset length = .ok x →
      ∃ w, element'.decode bytes offset length = .ok w ∧ x.Linked Q w) :
    ∃ w, (list element' maxElements).decode bytes offset length = .ok w ∧
      (Value.list items).Linked Q w := by
  obtain ⟨_, same, counted, filled, steps⟩ := decode_list_eq_ok_iff.mp decoded
  cases same
  rw [← paired.elementCount_eq] at counted
  rw [← paired.checkFilled_eq] at filled
  obtain ⟨ws, decoded', count, linked⟩ := exists_decode_list
    (R := fun index w => ∀ x, items[index]? = some x → x.Linked Q w) counted filled <| by
      intro index bound
      rcases bind_eq_ok_iff.mp (steps index bound) with ⟨place, span, read⟩
      rw [← paired.elementSpan_eq] at span
      obtain ⟨w, read', linked⟩ := each _ (List.getElem_mem bound) _ _ read
      refine ⟨w, bind_eq_ok_iff.mpr ⟨place, span, read'⟩, ?_⟩
      intro x hx
      rw [List.getElem?_eq_getElem bound, Option.some.injEq] at hx
      subst hx
      exact linked
  refine ⟨.list ws, decoded', .list count.symm ?_⟩
  intro i x w hx hw
  obtain ⟨bound, rfl⟩ := List.getElem?_eq_some_iff.mp hw
  exact linked i bound x hx

/-- **A paired operator reads the same octets**, and what it reads is linked. -/
theorem decode_paired (opened : ∀ c d, R c d → c.OpenedBy d) (closed : ∀ r, P r → r.Closed)
    (holds : op.Holds P v) (paired : op.Paired R op') {bytes : Bytes} {offset length : Nat}
    (decoded : op.decode bytes offset length = .ok v) :
    ∃ w, op'.decode bytes offset length = .ok w ∧ v.Linked (Record.Paired R) w := by
  induction holds generalizing op' bytes offset length with
  | fixed kind limit s =>
      cases paired
      exact ⟨_, decoded, .scalar s⟩
  | string s =>
      cases paired
      exact ⟨_, decoded, .scalar s⟩
  | binary s =>
      cases paired
      exact ⟨_, decoded, .scalar s⟩
  | list _ ih =>
      cases paired with
      | list paired =>
          apply decode_list_paired paired decoded
          intro x hx offset length read
          exact ih x hx paired read
  | @group r m here read _ _ ih =>
      cases paired with
      | @group _ d related slots =>
          obtain ⟨b, slice, small, complete, same⟩ := decode_group_eq_ok_iff.mp decoded
          -- The record was read, so it is nothing but its buffer.
          have backed : r = Record.backed r.codec b := Value.group.inj same
          have buffer : r.buffer = some b := congrArg Record.buffer backed
          obtain ⟨small', complete'⟩ := opened _ _ related b small complete
          refine ⟨_, decode_group_eq_ok_iff.mpr ⟨b, slice, small', complete', rfl⟩, ?_⟩
          have decodedAll : r.codec.decodeAll b = .ok m := by
            rw [← Record.values_backed, ← backed]
            exact read
          rw [backed]
          apply TableCodec.linked_backed related (closed r here b buffer) decodedAll
          intro id s s' offset v slot slot' read value
          rcases bind_eq_ok_iff.mp read with ⟨place, span, inside⟩
          have paired := slots id s s' slot slot'
          obtain ⟨w, read', linked⟩ := ih id v s value slot paired inside
          exact ⟨w, bind_eq_ok_iff.mpr ⟨place, Slot.span_paired paired span, read'⟩, linked⟩

end Operator

end RecordFormat
