import RecordFormat.Proofs.Codec.Access

/-!
# Reads are confined to a field's own octets

A payload is read where it stands, with absolute positions. Yet nothing around it matters:
reading a part of a run is reading the part alone, and a failure differs in nothing but the
position that it names (`Operator.decode_of_partAt`). Inside a list the same holds for one
element, of which only the regions in `Operator.elementRegions` are looked at. All positions and
lengths may be hostile; the checks along the way are what keeps the reads inside.
-/

namespace RecordFormat

open Outcome
open Bytes (PartAt slice number)

/-! ## Moving a failure -/

/-- The failure as octets report it that stand further on. -/
def CodecError.moved (offset : Nat) : CodecError → CodecError
  | .invalidUtf8 position => .invalidUtf8 (offset + position)
  | e => e

theorem CodecError.moved_moved (first second : Nat) (e : CodecError) :
    (e.moved second).moved first = e.moved (first + second) := by
  cases e <;> simp [moved, Nat.add_assoc]

theorem mapError_moved_moved {α : Type} (x : Except CodecError α) (first second : Nat) :
    (x.mapError (CodecError.moved second)).mapError (CodecError.moved first) =
      x.mapError (CodecError.moved (first + second)) := by
  cases x with
  | ok a => rfl
  | error e => exact congrArg Except.error (e.moved_moved first second)

/-- The outcome names no position inside a payload. -/
def Unplaced {α : Type} (x : Except CodecError α) : Prop :=
  ∀ offset, x.mapError (CodecError.moved offset) = x

namespace Unplaced

variable {α β : Type}

theorem ok (a : α) : Unplaced (.ok a : Except CodecError α) := fun _ => rfl

theorem corrupt (defect : Defect) : Unplaced (.error (.corrupt defect) : Except CodecError α) :=
  fun _ => rfl

theorem refuseIf {broken : Prop} [Decidable broken] {e : CodecError}
    (h : ∀ offset, e.moved offset = e) : Unplaced (Outcome.refuseIf broken e) := by
  intro offset
  rw [mapError_refuseIf, h]

theorem bind {x : Except CodecError α} {f : α → Except CodecError β} (hx : Unplaced x)
    (hf : ∀ a, Unplaced (f a)) : Unplaced (x >>= f) := by
  intro offset
  rw [mapError_bind, hx offset]
  exact congrArg _ (funext fun a => hf a offset)

theorem number {bytes : Bytes} {offset width : Nat} :
    Unplaced (Bytes.number bytes offset width) := by
  intro k
  unfold Bytes.number Bytes.slice
  split <;> rfl

end Unplaced

namespace Operator

variable {element op : Operator} {maxElements count index length offset : Nat} {bytes p q : Bytes}

/-! ## Lists -/

theorem unplaced_elementCount :
    Unplaced (element.elementCount maxElements bytes offset length) :=
  .bind (.refuseIf fun _ => rfl) fun _ => .bind (.number) fun _ =>
    .bind (.refuseIf fun _ => rfl) fun _ => .bind (.refuseIf fun _ => rfl) fun _ => .ok _

theorem unplaced_checkFilled : Unplaced (element.checkFilled count length) := by
  unfold checkFilled
  split
  · exact .refuseIf fun _ => rfl
  · exact .ok ()

theorem unplaced_elementSpan :
    Unplaced (element.elementSpan bytes offset length count index) := by
  refine .bind (.refuseIf fun _ => rfl) fun _ => ?_
  split
  · exact .ok _
  · exact .bind (.number) fun _ => .bind (.refuseIf fun _ => rfl) fun _ =>
      .bind (.number) fun _ => .bind (.refuseIf fun _ => rfl) fun _ => .ok _

/-- The elements that were counted, or their positions, are in the list. -/
theorem room_of_elementCount
    (counted : element.elementCount maxElements bytes offset length = .ok count) :
    countWidth + count * element.width?.getD positionWidth ≤ length := by
  obtain ⟨_, -, counted⟩ := bind_eq_ok_iff.mp counted
  obtain ⟨n, -, counted⟩ := bind_eq_ok_iff.mp counted
  obtain ⟨_, -, counted⟩ := bind_eq_ok_iff.mp counted
  obtain ⟨_, room, counted⟩ := bind_eq_ok_iff.mp counted
  obtain rfl := pure_eq_ok_iff.mp counted
  exact Nat.not_lt.mp (refuseIf_eq_ok_iff.mp room)

theorem elementCount_of_part (part : PartAt bytes offset p) :
    element.elementCount maxElements bytes offset p.size =
      element.elementCount maxElements p 0 p.size := by
  unfold elementCount
  by_cases short : p.size < countWidth
  · simp only [refuseIf, if_pos short]
    rfl
  · have same : number bytes (offset + 0) countWidth = number p 0 countWidth :=
      part.number_inner (by omega)
    rw [Nat.add_zero] at same
    rw [same]

/-- Where an element is does not depend on where the list is. -/
theorem elementSpan_of_part (part : PartAt bytes offset p)
    (room : countWidth + count * element.width?.getD positionWidth ≤ p.size) :
    element.elementSpan bytes offset p.size count index =
      (fun span => (offset + span.1, span.2)) <$> element.elementSpan p 0 p.size count index := by
  unfold elementSpan
  by_cases outside : count ≤ index
  · simp only [refuseIf, if_pos outside]
    rfl
  · simp only [refuseIf, if_neg outside, ok_bind]
    cases fixed : element.width? with
    | some width =>
        simp only []
        show Except.ok _ = Except.ok _
        simp only [Nat.zero_add, Nat.add_assoc]
    | none =>
        rw [fixed, Option.getD_none] at room
        have slot : countWidth + index * positionWidth + positionWidth ≤ p.size := by
          have := Nat.mul_le_mul_right positionWidth (Nat.succ_le_of_lt (Nat.not_le.mp outside))
          rw [Nat.succ_mul] at this
          omega
        have same := part.number_inner slot
        simp only [Nat.zero_add, ← same, Nat.add_assoc]
        cases number bytes (offset + (countWidth + index * positionWidth)) positionWidth with
        | error e => rfl
        | ok relative =>
            simp only [ok_bind]
            by_cases outside : relative < countWidth + count * positionWidth ∨
                p.size < relative + element.lengthWidth
            · simp only [if_pos outside]
              rfl
            · have same : number bytes (offset + relative) element.lengthWidth =
                  number p relative element.lengthWidth := part.number_inner (by omega)
              simp only [if_neg outside, ok_bind, ← same]
              cases number bytes (offset + relative) element.lengthWidth with
              | error e => rfl
              | ok size =>
                  simp only [ok_bind]
                  split <;> rfl

/-- An element that was found is inside the list. -/
theorem elementSpan_le {start size : Nat}
    (room : countWidth + count * element.width?.getD positionWidth ≤ length)
    (found : element.elementSpan bytes offset length count index = .ok (start, size)) :
    start + size ≤ offset + length := by
  obtain ⟨_, inside, found⟩ := bind_eq_ok_iff.mp found
  rw [refuseIf_eq_ok_iff, Nat.not_le] at inside
  cases fixed : element.width? with
  | some width =>
      rw [fixed] at found
      cases pure_eq_ok_iff.mp found
      rw [fixed, Option.getD_some] at room
      have := Nat.mul_le_mul_right size (Nat.succ_le_of_lt inside)
      rw [Nat.succ_mul] at this
      omega
  | none =>
      rw [fixed] at found
      obtain ⟨relative, -, found⟩ := bind_eq_ok_iff.mp found
      obtain ⟨_, -, found⟩ := bind_eq_ok_iff.mp found
      obtain ⟨n, -, found⟩ := bind_eq_ok_iff.mp found
      obtain ⟨_, within, found⟩ := bind_eq_ok_iff.mp found
      rw [refuseIf_eq_ok_iff] at within
      cases pure_eq_ok_iff.mp found
      omega

/-! ## Payloads -/

/-- What is wrong with a nested record is told without a position. -/
theorem unplaced_record {codec : TableCodec} : Unplaced (do
    let b ← RecordBuffer.ofBytes p codec.limits.maxRecordSize
    return Value.group (← RecordError.nest codec.table.name (Record.ofBuffer codec b))) := by
  refine .bind ?_ fun b => .bind ?_ fun r => .ok _
  · unfold RecordBuffer.ofBytes
    split
    · exact fun _ => rfl
    · split
      · exact .corrupt _
      · exact .ok _
  · intro offset
    cases Record.ofBuffer codec b <;> rfl

/-- An element stands in the list, which stands in the run. -/
private theorem elementAt_of_part (index : Nat) (part : PartAt bytes offset p)
    (room : countWidth + count * element.width?.getD positionWidth ≤ p.size)
    (alone : ∀ {bytes p : Bytes} {offset : Nat}, PartAt bytes offset p →
      element.decode bytes offset p.size =
        (element.decode p 0 p.size).mapError (CodecError.moved offset)) :
    (do
      let (position, size) ← element.elementSpan bytes offset p.size count index
      element.decode bytes position size) =
    (do
      let (position, size) ← element.elementSpan p 0 p.size count index
      element.decode p position size).mapError (CodecError.moved offset) := by
  rw [elementSpan_of_part part room, mapError_bind, unplaced_elementSpan]
  cases found : element.elementSpan p 0 p.size count index with
  | error e => rfl
  | ok span =>
      obtain ⟨start, size⟩ := span
      have inside := elementSpan_le room found
      rw [Nat.zero_add] at inside
      obtain ⟨own, length⟩ := Bytes.partAt_extract inside
      have outer := alone (part.trans own)
      have inner := alone own
      rw [length] at outer inner
      show element.decode bytes (offset + start) size =
        (element.decode p start size).mapError (CodecError.moved offset)
      rw [outer, inner, mapError_moved_moved]

/-- **A payload is read as if it stood alone.** What stands before and after it, and where it
stands, make no difference but for the position that a failure names. -/
theorem decode_of_part : ∀ (op : Operator) {bytes p : Bytes} {offset : Nat},
    PartAt bytes offset p →
      op.decode bytes offset p.size = (op.decode p 0 p.size).mapError (CodecError.moved offset)
  | .fixed kind limit, bytes, p, offset, part => by
      rw [decode, decode, part.slice_eq, (Bytes.partAt_self p).slice_eq, mapError_bind,
        mapError_refuseIf]
      rfl
  | .string, bytes, p, offset, part => by
      rw [decode, decode, part.slice_eq, (Bytes.partAt_self p).slice_eq]
      simp only [ok_bind]
      cases Text.ofUtf8? p <;> rfl
  | .binary, bytes, p, offset, part => by
      rw [decode, decode, part.slice_eq, (Bytes.partAt_self p).slice_eq]
      rfl
  | .group codec, bytes, p, offset, part => by
      rw [decode, decode, part.slice_eq, (Bytes.partAt_self p).slice_eq]
      exact (unplaced_record offset).symm
  | .list element maxElements, bytes, p, offset, part => by
      rw [decode, decode, elementCount_of_part part, mapError_bind, unplaced_elementCount]
      cases counted : element.elementCount maxElements p 0 p.size with
      | error e => rfl
      | ok count =>
          have room := room_of_elementCount counted
          have each := fun index =>
            elementAt_of_part index part room fun part => decode_of_part element part
          simp only [ok_bind, mapError_bind, mapError_mapM, unplaced_checkFilled offset, each]
          rfl

theorem decodeElement_of_part (part : PartAt bytes offset p) :
    element.decodeElement maxElements bytes offset p.size index =
      (element.decodeElement maxElements p 0 p.size index).mapError (CodecError.moved offset) := by
  rw [decodeElement, decodeElement, elementCount_of_part part, mapError_bind,
    unplaced_elementCount]
  cases counted : element.elementCount maxElements p 0 p.size with
  | error e => rfl
  | ok count =>
      exact elementAt_of_part index part (room_of_elementCount counted) element.decode_of_part

theorem decodeElement_of_outside
    (counted : element.elementCount maxElements bytes offset length = .ok count)
    (outside : count ≤ index) : element.decodeElement maxElements bytes offset length index =
      .error (.outOfBounds index 1 count) := by
  rw [decodeElement, counted, ok_bind, elementSpan, refuseIf, if_pos outside]
  rfl

/-! ## One element -/

/-- Where reading one element of a list looks, by start and length: at the count and then, if
all elements have one width, at the element. Otherwise at its position and, as far as they are
in the list, at its length slot and its payload. -/
def elementRegions (element : Operator) (p : Bytes) (index : Nat) : List (Nat × Nat) :=
  (0, countWidth) :: match element.width? with
  | some width => [(countWidth + index * width, width)]
  | none =>
    let slot := countWidth + index * positionWidth
    let relative := RecordBuffer.numberAt p slot positionWidth
    let payload := relative + element.lengthWidth
    let size := RecordBuffer.numberAt p relative element.lengthWidth
    let table := countWidth + RecordBuffer.numberAt p 0 countWidth * positionWidth
    (slot, positionWidth) ::
      if table ≤ relative ∧ payload ≤ p.size then
        (relative, element.lengthWidth) ::
          if payload + size ≤ p.size then [(payload, size)] else []
      else []

end Operator

/-- Two runs of one length have the same octets in some regions. -/
structure Bytes.AgreeOn (regions : List (Nat × Nat)) (p q : Bytes) : Prop where
  size : q.size = p.size
  octets : ∀ s ∈ regions, q.extract s.1 (s.1 + s.2) = p.extract s.1 (s.1 + s.2)

namespace Bytes.AgreeOn

variable {regions : List (Nat × Nat)} {p q : Bytes} {start length : Nat}

theorem number_eq (h : AgreeOn regions p q) (mem : (start, length) ∈ regions) :
    number q start length = number p start length := by
  unfold number slice
  rw [h.size, h.octets _ mem]

/-- What is read of a region is the same. -/
theorem decode_eq (h : AgreeOn regions p q) (mem : (start, length) ∈ regions)
    (inside : start + length ≤ p.size) (op : Operator) :
    op.decode q start length = op.decode p start length := by
  obtain ⟨here, size⟩ := partAt_extract inside
  have there : PartAt q start (p.extract start (start + length)) := by
    rw [← h.octets _ mem]
    exact (partAt_extract (h.size ▸ inside)).1
  have eq := op.decode_of_part there
  rw [← op.decode_of_part here, size] at eq
  exact eq

end Bytes.AgreeOn

namespace Operator

variable {element : Operator} {maxElements count index : Nat} {p q : Bytes}

theorem eq_numberAt_of_number {start width n : Nat} (h : number p start width = .ok n) :
    n = RecordBuffer.numberAt p start width := by
  obtain ⟨part, sliced, rfl⟩ := map_eq_ok_iff.mp h
  rw [(Bytes.slice_eq_ok_iff.mp sliced).2]
  rfl

/-- What was counted is what the first octets say. -/
theorem eq_of_elementCount
    (counted : element.elementCount maxElements p 0 p.size = .ok count) :
    count = RecordBuffer.numberAt p 0 countWidth := by
  obtain ⟨_, -, counted⟩ := bind_eq_ok_iff.mp counted
  obtain ⟨n, read, counted⟩ := bind_eq_ok_iff.mp counted
  obtain ⟨_, -, counted⟩ := bind_eq_ok_iff.mp counted
  obtain ⟨_, -, counted⟩ := bind_eq_ok_iff.mp counted
  rw [← pure_eq_ok_iff.mp counted]
  exact eq_numberAt_of_number read

/-- The element's own octets are among those that are looked at. -/
theorem mem_elementRegions (counted : element.elementCount maxElements p 0 p.size = .ok count)
    {span : Nat × Nat} (found : element.elementSpan p 0 p.size count index = .ok span) :
    span ∈ element.elementRegions p index := by
  obtain rfl := eq_of_elementCount counted
  obtain ⟨_, -, found⟩ := bind_eq_ok_iff.mp found
  cases fixed : element.width? with
  | some width =>
      rw [fixed] at found
      cases pure_eq_ok_iff.mp found
      simp [elementRegions, fixed]
  | none =>
      rw [fixed] at found
      obtain ⟨relative, read, found⟩ := bind_eq_ok_iff.mp found
      obtain ⟨_, inside, found⟩ := bind_eq_ok_iff.mp found
      obtain ⟨size, sized, found⟩ := bind_eq_ok_iff.mp found
      obtain ⟨_, within, found⟩ := bind_eq_ok_iff.mp found
      rw [refuseIf_eq_ok_iff, not_or, Nat.not_lt, Nat.not_lt] at inside
      rw [refuseIf_eq_ok_iff, Nat.not_lt] at within
      cases pure_eq_ok_iff.mp found
      simp only [Nat.zero_add] at read sized ⊢
      simp only [elementRegions, fixed, ← eq_numberAt_of_number read,
        ← eq_numberAt_of_number sized]
      simp [inside, within]

theorem elementCount_eq_of_agree (agree : Bytes.AgreeOn (element.elementRegions p index) p q) :
    element.elementCount maxElements q 0 q.size = element.elementCount maxElements p 0 p.size := by
  unfold elementCount
  rw [agree.size, agree.number_eq (List.mem_cons_self ..)]

theorem elementSpan_eq_of_agree (agree : Bytes.AgreeOn (element.elementRegions p index) p q)
    (counted : element.elementCount maxElements p 0 p.size = .ok count) :
    element.elementSpan q 0 q.size count index = element.elementSpan p 0 p.size count index := by
  obtain rfl := eq_of_elementCount counted
  unfold elementSpan
  rw [agree.size]
  cases fixed : element.width? with
  | some width => rfl
  | none =>
      have slot : number q (countWidth + index * positionWidth) positionWidth =
          number p (countWidth + index * positionWidth) positionWidth :=
        agree.number_eq (by simp [elementRegions, fixed])
      simp only [Nat.zero_add, slot]
      cases read : number p (countWidth + index * positionWidth) positionWidth with
      | error e => rfl
      | ok relative =>
          simp only [ok_bind]
          by_cases outside : relative <
                countWidth + RecordBuffer.numberAt p 0 countWidth * positionWidth ∨
              p.size < relative + element.lengthWidth
          · simp only [refuseIf, if_pos outside]
            rfl
          · -- The position is inside, so the length slot is looked at.
            rw [not_or, Nat.not_lt, Nat.not_lt] at outside
            have length : number q relative element.lengthWidth =
                number p relative element.lengthWidth := by
              apply agree.number_eq
              simp only [elementRegions, fixed, ← eq_numberAt_of_number read]
              simp [outside]
            rw [length]

/-- **One element** is read from its own octets, whatever the rest of the list is. -/
theorem decodeElement_eq_of_agree
    (agree : Bytes.AgreeOn (element.elementRegions p index) p q) :
    element.decodeElement maxElements q 0 q.size index =
      element.decodeElement maxElements p 0 p.size index := by
  unfold decodeElement
  rw [elementCount_eq_of_agree agree]
  cases counted : element.elementCount maxElements p 0 p.size with
  | error e => rfl
  | ok count =>
      simp only [ok_bind]
      rw [elementSpan_eq_of_agree agree counted]
      cases found : element.elementSpan p 0 p.size count index with
      | error e => rfl
      | ok span =>
          have inside := elementSpan_le (room_of_elementCount counted) found
          rw [Nat.zero_add] at inside
          exact agree.decode_eq (mem_elementRegions counted found) inside element

end Operator

/-! ## Fields -/

namespace TableCodec

variable {c : TableCodec} {b : RecordBuffer} {f : Field} {p : Bytes}

/-- The octets `p` decide what is read of a field, and of a list's element its own octets do. -/
structure Confined (c : TableCodec) (b : RecordBuffer) (f : Field) (op : Operator) (p : Bytes) :
    Prop where
  read : (c.readField b f).toOption = (op.decode p 0 p.size).toOption.map some
  size : ∀ element maxElements, op = .list element maxElements →
    (c.listSize b f).toOption = (element.elementCount maxElements p 0 p.size).toOption.map some
  element : ∀ element maxElements, op = .list element maxElements → ∀ index,
    (c.listElement b f index).toOption =
      (element.decodeElement maxElements p 0 p.size index).toOption.map some
  own : ∀ element maxElements, op = .list element maxElements → ∀ index q,
    Bytes.AgreeOn (element.elementRegions p index) p q →
      element.decodeElement maxElements q 0 q.size index =
        element.decodeElement maxElements p 0 p.size index

/-- Where a payload is. -/
theorem exists_span_of_payload? (h : c.payload? b f = .ok (some p)) :
    ∃ s offset start, c.storedSlot f = .ok s ∧ b.locate? f.id = some offset ∧
      s.span b offset = .ok (start, p.size) ∧ PartAt b.bytes start p := by
  obtain ⟨s, own, h⟩ := bind_eq_ok_iff.mp h
  cases found : b.locate? f.id with
  | none =>
      rw [found] at h
      cases pure_eq_ok_iff.mp h
  | some offset =>
      rw [found] at h
      obtain ⟨⟨start, length⟩, span, h⟩ := bind_eq_ok_iff.mp h
      obtain ⟨p, sliced, eq⟩ := map_eq_ok_iff.mp h
      cases eq
      obtain ⟨part, rfl⟩ := Bytes.partAt_of_slice (mapError_eq_ok_iff.mp sliced)
      exact ⟨s, offset, start, own, rfl, mapError_eq_ok_iff.mp span, part⟩

theorem toOption_map_lift {α : Type} (x : Except CodecError α) :
    (some <$> RecordError.lift x).toOption = x.toOption.map some := by
  cases x <;> rfl

/-- **Reads are confined to the field's own octets**, whatever those and all others are. -/
theorem confined_of_payload? (h : c.payload? b f = .ok (some p)) :
    ∃ op, c.operator? f.id = some op ∧ c.Confined b f op p := by
  obtain ⟨s, offset, start, own, found, span, part⟩ := exists_span_of_payload? h
  have known : c.operator? f.id = some s.operator := by
    rw [operator?, slot?_of_storedSlot own]
    rfl
  have listed : ∀ element maxElements, s.operator = .list element maxElements →
      c.listSpan b f = .ok (some (element, maxElements, start, p.size)) := by
    intro element maxElements op
    rw [listSpan, own]
    simp only [ok_bind, op, found, span]
    rfl
  refine ⟨s.operator, known, ?_, ?_, ?_, ?_⟩
  · rw [readField, own, found]
    show (some <$> RecordError.lift (s.read b offset)).toOption = _
    rw [toOption_map_lift, Slot.read, span]
    show ((s.operator.decode b.bytes start p.size).toOption).map some = _
    rw [s.operator.decode_of_part part, toOption_mapError]
  · intro element maxElements op
    rw [listSize, listed element maxElements op]
    show (some <$> RecordError.lift _).toOption = _
    rw [toOption_map_lift, Operator.elementCount_of_part part]
  · intro element maxElements op index
    rw [listElement, listed element maxElements op]
    simp only [ok_bind, Operator.elementCount_of_part part, Operator.decodeElement_of_part part]
    cases counted : element.elementCount maxElements p 0 p.size with
    | error e =>
        rw [Operator.decodeElement, counted]
        rfl
    | ok count =>
        by_cases outside : count ≤ index
        · rw [Operator.decodeElement_of_outside counted outside]
          show (refuseIf (count ≤ index) _ >>= fun _ => _).toOption = _
          rw [refuseIf, if_pos outside]
          rfl
        · show (refuseIf (count ≤ index) _ >>= fun _ => some <$> RecordError.lift _).toOption = _
          rw [refuseIf, if_neg outside, ok_bind, toOption_map_lift, toOption_mapError]
  · intro element maxElements _ index q agree
    exact Operator.decodeElement_eq_of_agree agree

end TableCodec

namespace Household

/-- The one name of the damaged person. -/
def nameOctets : Bytes := [0, 0, 0, 1, 0, 0, 0, 8, 0, 3, 65, 110, 110].toByteArray

/-- The names are read from their own octets, whatever has become of the age. -/
theorem confined_names : personCodec.payload? damaged names = .ok (some nameOctets) ∧
    ∃ op, personCodec.operator? 3 = some op ∧
      personCodec.Confined damaged names op nameOctets := by
  have octets : personCodec.payload? damaged names = .ok (some nameOctets) :=
    toOption_eq_some_iff.mp (by decide +kernel)
  exact ⟨octets, TableCodec.confined_of_payload? octets⟩

end Household

end RecordFormat
