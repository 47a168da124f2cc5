import RecordFormat.Record.Reading

/-!
# Writing values and records

`Operator.size` announces the length of a payload and `Operator.payload` writes it. A record
is written from its header, an index sorted by number, the fixed-width payloads and then the
others behind their length slots, both in the order of their numbers. A record without staged
changes is its buffer.
-/

namespace RecordFormat

open Outcome

namespace FixedKind

/-- The number written for a scalar of the kind. -/
def numberOf? : FixedKind → Scalar → Option Nat
  | .bool, .bool v => some v.toNat
  | .byte, .byte v => some v.toUInt8.toNat
  | .int16, .int16 v => some v.toUInt16.toNat
  | .int32, .int32 v => some v.toUInt32.toNat
  | .int64, .int64 v => some v.toUInt64.toNat
  | .float, .float v => some v.bits.toNat
  | .double, .double v => some v.bits.toNat
  | _, _ => none

/-- The payload of a scalar of the kind. -/
def write? (k : FixedKind) (s : Scalar) : Option Bytes :=
  (k.numberOf? s).map (BigEndian.encode k.width)

end FixedKind

namespace Record

variable (r : Record)

/-- True when something is not yet in a buffer. -/
def isDirty : Bool := r.buffer.isNone || !r.pending.isEmpty || !r.cleared.isEmpty

def isStaged (id : Int16) : Bool := IdMap.contains r.pending id

def isCleared (id : Int16) : Bool := r.cleared.contains id

/-- True when the buffer has a value for the number. -/
def isBuffered (id : Int16) : Bool := r.buffer.any fun b => b.contains id

/-- True when the field is one of the table and has a value of its own. -/
def isSet (f : Field) : Bool :=
  (r.codec.table.resolve? f).isSome &&
    (r.isStaged f.id || (!r.isCleared f.id && r.isBuffered f.id))

/-- True when every required stored field is set. -/
def isComplete : Bool := (r.codec.table.requiredFields.filter Field.isStored).all r.isSet

/-- The values that the buffer holds and that are not cleared. -/
def kept : Except RecordError (IdMap Value) :=
  match r.buffer with
  | some b => do return (← r.codec.decodeAll b).filter fun e => !r.isCleared e.1
  | none => .ok []

/-- Every value of a stored field, by number. -/
def values : Except RecordError (IdMap Value) := do return (← r.kept).insertAll r.pending

theorem depth_of_values {r : Record} {m : IdMap Value} (h : r.values = .ok m)
    {e : Int16 × Value} (mem : e ∈ m) : e.2.depth < r.depth := by
  obtain ⟨k, hk, eq⟩ := bind_eq_ok_iff.1 h
  obtain rfl := pure_eq_ok_iff.1 eq
  rcases IdMap.mem_insertAll mem with mem | mem
  · unfold kept at hk
    split at hk
    · obtain ⟨all, hall, eq⟩ := bind_eq_ok_iff.1 hk
      obtain rfl := pure_eq_ok_iff.1 eq
      have := TableCodec.depth_of_decodeAll hall (List.mem_filter.1 mem).1
      have := r.depth_eq
      omega
    · cases hk
      cases mem
  · exact depth_pending_lt mem

end Record

namespace Operator

/-- True when the operator can write the value: a scalar that fits, a record of the group's
table with all required fields, or a list of such. -/
def accepts : Operator → Value → Bool
  | .fixed kind limit, .scalar s => s.fits kind.primitive limit
  | .string, .scalar s => s.fits .string .zero
  | .binary, .scalar s => s.fits .binary .zero
  | .group codec, .group r => r.codec.table.name = codec.table.name && r.isComplete
  | .list element maxElements, .list items =>
    items.length ≤ maxElements && items.all element.accepts
  | _, _ => false

/-- The operator does not write the record's table. -/
def foreign (codec : TableCodec) (r : Record) : Bool := r.codec.table.name ≠ codec.table.name

end Operator

/-- The length slot of a payload; lengths that do not fit it are refused. -/
def lengthSlot (width length : Nat) (type : String) : Except CodecError Bytes :=
  if width ≠ 0 ∧ BigEndian.maximum width < length then
    .error (.lengthOverflow type length (BigEndian.maximum width))
  else .ok (BigEndian.encode width length)

/-- Lengths added up. -/
def total (lengths : List Nat) : Nat := lengths.foldr (· + ·) 0

/-- Where blocks begin that follow each other from `start`. -/
def positions (start : Nat) (blocks : List Bytes) : List Nat :=
  go [] start blocks
where
  /-- Puts the positions behind those in `found`, which are in reverse. -/
  go (found : List Nat) (next : Nat) : List Bytes → List Nat
    | [] => found.reverse
    | block :: rest => go (next :: found) (next + block.size) rest

@[simp] theorem positions_nil (start : Nat) : positions start [] = [] := rfl

private theorem positions_go (found : List Nat) (next : Nat) (blocks : List Bytes) :
    positions.go found next blocks = found.reverse ++ positions next blocks := by
  induction blocks generalizing found next with
  | nil => simp [positions, positions.go]
  | cons block rest ih =>
    rw [positions, positions.go, positions.go, ih, ih [next]]
    simp

@[simp] theorem positions_cons (start : Nat) (block : Bytes) (rest : List Bytes) :
    positions start (block :: rest) = start :: positions (start + block.size) rest := by
  rw [positions, positions.go, positions_go]
  rfl

namespace TableCodec

variable (c : TableCodec)

/-- The value of a slot, if there is one; it must be acceptable, and there if required. -/
def checkSlot (values : IdMap Value) (s : Slot) : Except RecordError (Option (Slot × Value)) :=
  match values.find? s.field.id with
  | some v =>
    if s.operator.accepts v then .ok (some (s, v))
    else .error (.valueRejected c.table.name s.field.name s.field.type.text v.typeName)
  | none =>
    if s.field.isRequired then .error (.missingRequired c.table.name s.field.name) else .ok none

/-- The slots that have values, in the order of their numbers. Every number must be known. -/
def contents (values : IdMap Value) : Except RecordError (List (Slot × Value)) :=
  match values.ids.find? fun id => (c.slot? id).isNone with
  | some id => .error (.unknownField c.table.name s!"{id}")
  | none => do return (← c.slots.mapM (c.checkSlot values)).filterMap id

theorem mem_of_contents {c : TableCodec} {values : IdMap Value} {cs : List (Slot × Value)}
    (h : c.contents values = .ok cs) {e : Slot × Value} (mem : e ∈ cs) :
    (e.1.field.id, e.2) ∈ values := by
  unfold contents at h
  split at h
  · cases h
  · obtain ⟨found, hf, eq⟩ := bind_eq_ok_iff.1 h
    obtain rfl := pure_eq_ok_iff.1 eq
    obtain ⟨o, mem, rfl⟩ := List.mem_filterMap.1 mem
    obtain ⟨s, _, hs⟩ := exists_of_mem_mapM hf mem
    unfold checkSlot at hs
    split at hs
    · next v hv =>
      split at hs <;> cases hs
      exact IdMap.mem_of_find? hv
    · split at hs <;> cases hs

end TableCodec

/-- The slots of a record that have values. -/
def Record.contents (r : Record) : Except RecordError (List (Slot × Value)) := do
  r.codec.contents (← r.values)

/-- How deep the values of slots nest. -/
def depthOfContents (cs : List (Slot × Value)) : Nat := depthOfItems (cs.map Prod.snd)

theorem depth_le_depthOfContents {cs : List (Slot × Value)} {e : Slot × Value} (h : e ∈ cs) :
    e.2.depth ≤ depthOfContents cs :=
  Value.depth_le_depthOfItems (List.mem_map_of_mem h)

theorem Record.depth_pos (r : Record) : 0 < r.depth := by
  have := r.depth_eq
  omega

theorem Record.depth_of_contents {r : Record} {cs : List (Slot × Value)}
    (h : r.contents = .ok cs) : depthOfContents cs < r.depth := by
  obtain ⟨m, hm, h⟩ := bind_eq_ok_iff.1 h
  have pos := r.depth_pos
  have : depthOfContents cs ≤ r.depth - 1 := depthOfItems_le fun v hv => by
    obtain ⟨e, mem, rfl⟩ := List.mem_map.1 hv
    exact Nat.le_sub_one_of_lt (depth_of_values hm (TableCodec.mem_of_contents h mem))
  omega

mutual

/-- The length of the payload of a value. -/
def Operator.size (op : Operator) (v : Value) : Except CodecError Nat :=
  match op, v with
  | .fixed kind _, _ => .ok kind.width
  | .string, .scalar (.string s) => .ok s.utf8ByteSize
  | .binary, .scalar (.binary b) => .ok b.size
  | .group codec, .group r =>
    if Operator.foreign codec r then .error (Operator.reject (.group codec) (.group r))
    else RecordError.nest codec.table.name r.byteLength
  | .list element _, .list items =>
    match element.width? with
    | some width => .ok (countWidth + items.length * width)
    | none => do
      let sizes ← items.attach.mapM fun ⟨x, _h⟩ => element.size x
      return countWidth + total (sizes.map fun n => positionWidth + element.lengthWidth + n)
  | op, v => .error (op.reject v)
termination_by (v.depth, 1)
decreasing_by
  · exact Prod.Lex.right _ Nat.zero_lt_one
  · exact Prod.Lex.left _ _ (Nat.lt_succ_of_le (Value.depth_le_depthOfItems _h))

/-- The length of a record that is made of slots and their values. -/
def layoutLength (cs : List (Slot × Value)) : Except CodecError Nat := do
  let sizes ← cs.attach.mapM fun ⟨e, _h⟩ => e.1.operator.size e.2
  let slots := cs.map fun e => RecordBuffer.entryLength + e.1.operator.lengthWidth
  return RecordBuffer.headerLength + total slots + total sizes
termination_by (depthOfContents cs, 2)
decreasing_by
  have := depth_le_depthOfContents _h
  simp only [Prod.lex_def]
  omega

/-- The length of a record's written form. -/
def Record.byteLength (r : Record) : Except RecordError Nat :=
  match r.buffer, r.isDirty with
  | some b, false => .ok b.size
  | _, _ =>
    match _h : r.contents with
    | .ok cs => RecordError.lift (layoutLength cs)
    | .error e => .error e
termination_by (r.depth, 0)
decreasing_by
  exact Prod.Lex.left _ _ (Record.depth_of_contents _h)

end

/-- Header, index and blocks, which are given with their numbers in the order in which they are
written. The header tells the length that was announced. -/
def assemble (announced : Nat) (version : Int16) (blocks : List (Int16 × Bytes)) : Bytes :=
  let first := RecordBuffer.headerLength + blocks.length * RecordBuffer.entryLength
  let data := Bytes.join (blocks.map Prod.snd)
  let entries := (blocks.map Prod.fst).zip (positions first (blocks.map Prod.snd))
  let sorted := entries.mergeSort fun a b => a.1 ≤ b.1
  BigEndian.encode 4 announced ++
    BigEndian.encode 2 version.toUInt16.toNat ++
    BigEndian.encode 2 blocks.length ++
    Bytes.join (sorted.map fun e =>
      BigEndian.encode 2 e.1.toUInt16.toNat ++ BigEndian.encode 4 e.2) ++
    data

/-- Fixed-width contents first, then the others. -/
def writingOrder (cs : List (Slot × Value)) : List (Slot × Value) :=
  cs.filter (fun e => e.1.operator.isFixed) ++ cs.filter fun e => !e.1.operator.isFixed

/-- The total length must be within the limit and fit the header. -/
def TableCodec.checkLength (c : TableCodec) (total : Nat) : Except CodecError Unit := do
  refuseIf (c.limits.maxRecordSize < total)
    (.limitExceeded .recordSize total c.limits.maxRecordSize)
  refuseIf (BigEndian.maximum 4 < total)
    (.lengthOverflow c.table.name total (BigEndian.maximum 4))

theorem depthOfContents_writingOrder (cs : List (Slot × Value)) :
    depthOfContents (writingOrder cs) ≤ depthOfContents cs :=
  depthOfItems_le fun v hv => by
    obtain ⟨e, mem, rfl⟩ := List.mem_map.1 hv
    rcases List.mem_append.1 mem with mem | mem <;>
      exact depth_le_depthOfContents (List.mem_filter.1 mem).1

mutual

/-- The payload of a value. -/
def Operator.payload (op : Operator) (v : Value) : Except CodecError Bytes :=
  match op, v with
  | .fixed kind limit, .scalar s =>
    match if s.fits kind.primitive limit then kind.write? s else none with
    | some bytes => .ok bytes
    | none => .error (Operator.reject (.fixed kind limit) (.scalar s))
  | .string, .scalar (.string s) => do
    refuseIf (BigEndian.maximum 2 < s.utf8ByteSize)
      (.lengthOverflow Primitive.string.name s.utf8ByteSize (BigEndian.maximum 2))
    return Text.utf8 s
  | .binary, .scalar (.binary b) => do
    refuseIf (BigEndian.maximum 4 < b.size) (Operator.reject .binary (.scalar (.binary b)))
    return b
  | .group codec, .group r =>
    if Operator.foreign codec r then .error (Operator.reject (.group codec) (.group r))
    else RecordError.nest codec.table.name r.toBytes
  | .list element maxElements, .list items => do
    refuseIf (maxElements < items.length) (.limitExceeded .listElements items.length maxElements)
    let blocks ← items.attach.mapM fun ⟨x, _h⟩ => element.block element.typeText x
    let first := countWidth + items.length * positionWidth
    let index := if element.isFixed then [] else positions first blocks
    return BigEndian.encode countWidth items.length ++
      Bytes.join (index.map (BigEndian.encode positionWidth)) ++ Bytes.join blocks
  | op, v => .error (op.reject v)
termination_by (v.depth, 1)
decreasing_by
  · exact Prod.Lex.right _ Nat.zero_lt_one
  · exact Prod.Lex.left _ _ (Nat.lt_succ_of_le (Value.depth_le_depthOfItems _h))

/-- A payload behind its length slot; fixed-width payloads have none. -/
def Operator.block (op : Operator) (type : String) (v : Value) : Except CodecError Bytes :=
  if op.isFixed then op.payload v
  else do
    let slot ← lengthSlot op.lengthWidth (← op.size v) type
    return slot ++ (← op.payload v)
termination_by (v.depth, 2)

/-- The record that is made of slots and their values. -/
def TableCodec.layout (c : TableCodec) (cs : List (Slot × Value)) : Except CodecError Bytes := do
  let announced ← layoutLength cs
  c.checkLength announced
  let blocks ← (writingOrder cs).attach.mapM fun ⟨e, _h⟩ => do
    return (e.1.field.id, ← e.1.operator.block e.1.field.type.text e.2)
  return assemble announced c.table.version blocks
termination_by (depthOfContents cs, 3)
decreasing_by
  have := depth_le_depthOfContents _h
  have := depthOfContents_writingOrder cs
  simp only [Prod.lex_def]
  omega

/-- A record's written form. -/
def Record.toBytes (r : Record) : Except RecordError Bytes :=
  match r.buffer, r.isDirty with
  | some b, false => .ok b.bytes
  | _, _ =>
    match _h : r.contents with
    | .ok cs => RecordError.lift (r.codec.layout cs)
    | .error e => .error e
termination_by (r.depth, 0)
decreasing_by
  exact Prod.Lex.left _ _ (Record.depth_of_contents _h)

end

namespace Operator

/-- The payload of a value whose length can be announced. -/
def encode (op : Operator) (v : Value) : Except CodecError Bytes := do
  let _ ← op.size v
  op.payload v

end Operator

namespace TableCodec

variable (c : TableCodec)

/-- The length of the record of a map of values. -/
def encodedLength (values : IdMap Value) : Except RecordError Nat := do
  RecordError.lift (layoutLength (← c.contents values))

/-- The record of a map of values. -/
def encode (values : IdMap Value) : Except RecordError Bytes := do
  RecordError.lift (c.layout (← c.contents values))

end TableCodec

end RecordFormat
