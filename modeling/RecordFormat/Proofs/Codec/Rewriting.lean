import RecordFormat.Proofs.Codec.Confinement
import RecordFormat.Proofs.Octets.Spans

/-!
# Writing what was read

Reading checks where things are, writing checks what they are. So a value that was read can be
written but for two things. A floating point number may be one that is never written
(`Operator.FloatsWithin`). And payloads may share octets, which writing would keep apart, so
that the value may have become longer than the limits allow; where nothing is shared
(`Operator.Separate`) it has not (`Operator.exists_rewrites`).
-/

namespace RecordFormat

open Outcome
open Bytes (PartAt slice number)

namespace Operator

/-- The floating point numbers of the value, alone or in a list, are such as are written. -/
def FloatsWithin : Operator → Value → Prop
  | .fixed .float limit, .scalar (.float x) => x.widen.within limit = true
  | .fixed .double limit, .scalar (.double x) => x.within limit = true
  | .list element _, .list items => ∀ v ∈ items, element.FloatsWithin v
  | _, _ => True

/-- No two elements of a list share octets, slots of their lengths included; and so on inside. -/
def Separate : Operator → Bytes → Nat → Nat → Prop
  | .list element maxElements, bytes, offset, length =>
    ∀ count, element.elementCount maxElements bytes offset length = .ok count →
      (∀ i j a b, i < j → element.elementSpan bytes offset length count i = .ok a →
        element.elementSpan bytes offset length count j = .ok b →
          Beside (a.1 - element.lengthWidth, a.1 + a.2) (b.1 - element.lengthWidth, b.1 + b.2)) ∧
      ∀ i a, element.elementSpan bytes offset length count i = .ok a →
        element.Separate bytes a.1 a.2
  | _, _, _, _ => True

/-- A value that would be written in `k` octets, if only its floating point numbers allow. -/
structure Rewrites (op : Operator) (v : Value) (k : Nat) : Prop where
  size : op.size v = .ok k
  accepts : op.accepts v = true ↔ op.FloatsWithin v
  payload : op.FloatsWithin v → k ≤ BigEndian.maximum 4 → ∃ p, op.payload v = .ok p
  fits : op.width? = none → k ≤ BigEndian.maximum 4 → k ≤ BigEndian.maximum op.lengthWidth

variable {op element : Operator} {v : Value} {maxElements count index length offset k : Nat}
  {bytes p : Bytes}

/-! ## Scalars and groups -/

theorem rewrites_fixed {kind : FixedKind} {limit : Binary64} (p : Bytes) :
    (fixed kind limit).Rewrites (.scalar (kind.read p)) kind.width := by
  have accepted : (fixed kind limit).accepts (.scalar (kind.read p)) = true ↔
      (fixed kind limit).FloatsWithin (.scalar (kind.read p)) := by
    cases kind <;> simp [accepts, FixedKind.read, Scalar.fits, Scalar.kind, FixedKind.primitive,
      FloatsWithin]
  have written : ∃ q, kind.write? (kind.read p) = some q := by
    cases kind <;> exact ⟨_, rfl⟩
  refine ⟨size_of_width? _ rfl, accepted, ?_, by simp [width?]⟩
  intro floats _
  obtain ⟨q, written⟩ := written
  exact ⟨q, payload_fixed_eq_ok_iff.mpr ⟨_, rfl, accepted.mpr floats, written⟩⟩

theorem rewrites_string {s : String} (short : s.utf8ByteSize ≤ BigEndian.maximum 2) :
    string.Rewrites (.scalar (.string s)) s.utf8ByteSize where
  size := by rw [Operator.size]
  accepts := by simp [accepts, Scalar.fits, Scalar.kind, FloatsWithin, short]
  payload _ _ := ⟨_, payload_string_eq_ok_iff.mpr ⟨s, rfl, short, rfl⟩⟩
  fits _ _ := short

theorem rewrites_binary (short : p.size ≤ BigEndian.maximum 4) :
    binary.Rewrites (.scalar (.binary p)) p.size where
  size := by rw [Operator.size]
  accepts := by simp [accepts, Scalar.fits, Scalar.kind, FloatsWithin, short]
  payload _ _ := ⟨p, payload_binary_eq_ok_iff.mpr ⟨rfl, short⟩⟩
  fits _ fits := fits

/-- A record over a buffer has what the buffer must have. -/
theorem isComplete_of_checkBuffer {codec : TableCodec} {b : RecordBuffer}
    (made : codec.table.Made) (checked : codec.checkBuffer b = .ok ()) :
    (Record.backed codec b).isComplete = true := by
  unfold Record.isComplete
  rw [List.all_eq_true]
  intro f hf
  have present := TableCodec.checkBuffer_eq_ok_iff.mp checked f hf
  have own : (Record.backed codec b).codec.table.resolve? f = some f :=
    made.resolve?_eq (List.mem_filter.mp (List.mem_filter.mp hf).1).1
  have buffered : (Record.backed codec b).isBuffered f.id = true :=
    RecordBuffer.contains_iff.mpr present
  rw [Record.isSet, own, buffered]
  simp [Record.isCleared, Record.backed, Record.empty]

theorem rewrites_group {codec : TableCodec} {b : RecordBuffer} (made : codec.table.Made)
    (checked : codec.checkBuffer b = .ok ()) :
    (group codec).Rewrites (.group (Record.backed codec b)) b.size := by
  have written : (group codec).payload (.group (Record.backed codec b)) = .ok b.bytes :=
    payload_group_eq_ok_iff.mpr ⟨_, rfl, rfl, Record.toBytes_of_clean rfl rfl⟩
  refine ⟨size_of_payload written, ?_, fun _ _ => ⟨b.bytes, written⟩, fun _ fits => fits⟩
  have complete := isComplete_of_checkBuffer made checked
  simp only [accepts, FloatsWithin, complete, iff_true, Bool.and_true]
  exact decide_eq_true rfl

/-! ## Lists -/

theorem le_of_elementCount
    (counted : element.elementCount maxElements bytes offset length = .ok count) :
    count ≤ maxElements := by
  obtain ⟨_, -, counted⟩ := bind_eq_ok_iff.mp counted
  obtain ⟨n, -, counted⟩ := bind_eq_ok_iff.mp counted
  obtain ⟨_, few, counted⟩ := bind_eq_ok_iff.mp counted
  obtain ⟨_, -, counted⟩ := bind_eq_ok_iff.mp counted
  obtain rfl := pure_eq_ok_iff.mp counted
  exact Nat.not_lt.mp (refuseIf_eq_ok_iff.mp few)

theorem le_maximum_of_number {start width n : Nat} (h : number bytes start width = .ok n) :
    n ≤ BigEndian.maximum width := by
  obtain ⟨part, sliced, rfl⟩ := map_eq_ok_iff.mp h
  obtain ⟨-, size⟩ := Bytes.partAt_of_slice sliced
  exact Nat.le_sub_one_of_lt (BigEndian.decode_lt part (Nat.le_of_eq size))

/-- An element with a length slot stands behind the positions, and its length fits the slot. -/
theorem elementSpan_of_none {start size : Nat} (unfixed : element.width? = none)
    (found : element.elementSpan bytes offset length count index = .ok (start, size)) :
    offset + countWidth + count * positionWidth + element.lengthWidth ≤ start ∧
      size ≤ BigEndian.maximum element.lengthWidth := by
  obtain ⟨_, -, found⟩ := bind_eq_ok_iff.mp found
  rw [unfixed] at found
  obtain ⟨relative, -, found⟩ := bind_eq_ok_iff.mp found
  obtain ⟨_, inside, found⟩ := bind_eq_ok_iff.mp found
  obtain ⟨n, sized, found⟩ := bind_eq_ok_iff.mp found
  obtain ⟨_, -, found⟩ := bind_eq_ok_iff.mp found
  rw [refuseIf_eq_ok_iff] at inside
  cases pure_eq_ok_iff.mp found
  exact ⟨by omega, le_maximum_of_number sized⟩

/-- An element that was read: its value, where its payload is, and in how many octets it would be
written. -/
structure Element where
  value : Value
  span : Nat × Nat
  length : Nat

/-- The element of a list at an index. -/
structure Element.At (element : Operator) (bytes : Bytes) (offset length count index : Nat)
    (x : Element) : Prop where
  found : element.elementSpan bytes offset length count index = .ok x.span
  rewrites : element.Rewrites x.value x.length
  short : element.Separate bytes x.span.1 x.span.2 → x.length ≤ x.span.2

variable {xs : List Element}

/-- The octets of an element and of the slot of its length. -/
def Element.region (element : Operator) (x : Element) : Nat × Nat :=
  (x.span.1 - element.lengthWidth, x.span.1 + x.span.2)

theorem accepts_list_iff (few : xs.length ≤ maxElements)
    (each : ∀ x ∈ xs, element.Rewrites x.value x.length) :
    (list element maxElements).accepts (.list (xs.map Element.value)) = true ↔
      (list element maxElements).FloatsWithin (.list (xs.map Element.value)) := by
  simp only [accepts, FloatsWithin, List.length_map, few, decide_true, Bool.true_and,
    List.all_eq_true, List.forall_mem_map]
  exact forall₂_congr fun x hx => (each x hx).accepts

/-- The elements' blocks, if each of them can be written. -/
theorem exists_payload_list (few : xs.length ≤ maxElements)
    (each : ∀ x ∈ xs, element.Rewrites x.value x.length)
    (small : ∀ x ∈ xs, x.length ≤ BigEndian.maximum 4)
    (floats : (list element maxElements).FloatsWithin (.list (xs.map Element.value))) :
    ∃ p, (list element maxElements).payload (.list (xs.map Element.value)) = .ok p := by
  have blocks : ∀ v ∈ xs.map Element.value, ∃ block,
      element.block element.typeText v = .ok block := by
    intro v hv
    obtain ⟨x, hx, rfl⟩ := List.mem_map.mp hv
    obtain ⟨p, written⟩ := (each x hx).payload (floats _ hv) (small x hx)
    have size := (each x hx).size
    rw [size_of_payload written, Except.ok.injEq] at size
    refine ⟨_, block_eq_ok_iff.mpr ⟨p, written, fun unfixed => ?_, rfl⟩⟩
    rw [size]
    exact (each x hx).fits (isFixed_eq_false_iff.mp unfixed) (small x hx)
  obtain ⟨blocks, written⟩ := exists_forall₂ blocks
  exact ⟨_, payload_list_eq_ok_iff.mpr ⟨_, blocks, rfl, by rwa [List.length_map], written, rfl⟩⟩

/-- A list of elements of one width is written in the octets that it was read from. -/
theorem rewrites_list_of_width? {width : Nat} (fixed : element.width? = some width)
    (few : xs.length ≤ maxElements) (each : ∀ x ∈ xs, element.Rewrites x.value x.length) :
    (list element maxElements).Rewrites (.list (xs.map Element.value))
      (countWidth + xs.length * width) := by
  have small : ∀ x ∈ xs, x.length ≤ BigEndian.maximum 4 := by
    intro x hx
    have size := (each x hx).size
    rw [size_of_width? _ fixed, Except.ok.injEq] at size
    rw [← size]
    cases element with
    | fixed kind limit =>
        cases fixed
        cases kind <;> decide
    | _ => cases fixed
  refine ⟨?_, accepts_list_iff few each, fun floats _ => exists_payload_list few each small floats,
    fun _ fits => fits⟩
  rw [Operator.size, fixed, List.length_map]

/-- The length of a list of elements that have length slots. -/
def listLength (element : Operator) (lengths : List Nat) : Nat :=
  countWidth + total (lengths.map fun n => positionWidth + element.lengthWidth + n)

theorem rewrites_list_of_none (unfixed : element.width? = none) (few : xs.length ≤ maxElements)
    (each : ∀ x ∈ xs, element.Rewrites x.value x.length) :
    (list element maxElements).Rewrites (.list (xs.map Element.value))
      (element.listLength (xs.map Element.length)) := by
  have sizes : (xs.map Element.value).mapM element.size = .ok (xs.map Element.length) := by
    rw [mapM_eq_ok_iff, List.forall₂_map_left_iff, List.forall₂_map_right_iff, List.forall₂_same]
    exact fun x hx => (each x hx).size
  refine ⟨?_, accepts_list_iff few each, ?_, fun _ fits => fits⟩
  · rw [Operator.size, unfixed]
    simp only [mapM_attach element.size, sizes]
    rfl
  · intro floats fits
    refine exists_payload_list few each (fun x hx => Nat.le_trans ?_ fits) floats
    have own : positionWidth + element.lengthWidth + x.length ≤
        total ((xs.map Element.length).map fun n => positionWidth + element.lengthWidth + n) :=
      le_total_of_mem (List.mem_map_of_mem (List.mem_map_of_mem hx))
    unfold listLength
    omega

/-- Where no two elements share octets, what would be written is no longer than the list. -/
theorem listLength_le (unfixed : element.width? = none)
    (room : countWidth + count * positionWidth ≤ length)
    (elements : List.Forall₂ (Element.At element bytes offset length count) (List.range count) xs)
    (apart : (xs.map (Element.region element)).Pairwise Beside)
    (inner : ∀ x ∈ xs, x.length ≤ x.span.2) :
    element.listLength (xs.map Element.length) ≤ length := by
  have span : ∀ x ∈ xs, offset + countWidth + count * positionWidth + element.lengthWidth ≤
      x.span.1 ∧ x.span.1 + x.span.2 ≤ offset + length := by
    intro x hx
    obtain ⟨index, -, here⟩ := exists_left_of_mem elements hx
    have before := (elementSpan_of_none unfixed here.found).1
    refine ⟨before, elementSpan_le ?_ here.found⟩
    rwa [unfixed, Option.getD_none]
  have inside : ∀ s ∈ xs.map (Element.region element),
      offset + countWidth + count * positionWidth ≤ s.1 ∧ s.2 ≤ offset + length := by
    intro s hs
    obtain ⟨x, hx, rfl⟩ := List.mem_map.mp hs
    have := span x hx
    unfold Element.region
    exact ⟨by omega, this.2⟩
  have data := total_le_of_beside apart inside
  have shorter : total (xs.map fun x => element.lengthWidth + x.length) ≤
      total ((xs.map (Element.region element)).map fun s => s.2 - s.1) := by
    rw [List.map_map]
    apply total_le_total
    rw [List.forall₂_map_left_iff, List.forall₂_map_right_iff, List.forall₂_same]
    intro x hx
    have := span x hx
    have := inner x hx
    unfold Element.region
    simp only [Function.comp_apply]
    omega
  have number : xs.length = count := by rw [← elements.length_eq, List.length_range]
  have split : (xs.map Element.length).map (fun n => positionWidth + element.lengthWidth + n) =
      xs.map fun x => positionWidth + (element.lengthWidth + x.length) := by
    rw [List.map_map]
    exact List.map_congr_left fun x _ => Nat.add_assoc ..
  rw [listLength, split, total_add, total_const, number]
  omega

/-- The elements that a list was read from. -/
theorem exists_elements {items : List Value}
    (each : ∀ index (h : index < items.length), ∃ span k,
      element.elementSpan bytes offset length items.length index = .ok span ∧
        element.Rewrites items[index] k ∧ (element.Separate bytes span.1 span.2 → k ≤ span.2)) :
    ∃ xs : List Element, items = xs.map Element.value ∧
      List.Forall₂ (Element.At element bytes offset length items.length)
        (List.range items.length) xs := by
  have step : ∀ index ∈ List.range items.length, ∃ x : Element,
      items[index]? = some x.value ∧ x.At element bytes offset length items.length index := by
    intro index mem
    have bound := List.mem_range.mp mem
    obtain ⟨span, k, found, rewrites, short⟩ := each index bound
    exact ⟨⟨items[index], span, k⟩, List.getElem?_eq_getElem bound, found, rewrites, short⟩
  obtain ⟨xs, related⟩ := exists_forall₂ step
  refine ⟨xs, ?_, related.imp fun _ _ h => h.2⟩
  have count : items.length = xs.length := by rw [← related.length_eq, List.length_range]
  apply List.ext_getElem (by rw [List.length_map, count])
  intro index here there
  rw [List.getElem_map]
  have own := (related.get (by rwa [List.length_range]) (count ▸ here)).1
  simp only [List.get_eq_getElem, List.getElem_range] at own
  rw [List.getElem?_eq_getElem here] at own
  exact Option.some.inj own

/-- What is separate in the list is pairwise so. -/
theorem pairwise_regions
    (elements : List.Forall₂ (Element.At element bytes offset length count) (List.range count) xs)
    (apart : ∀ i j a b, i < j → element.elementSpan bytes offset length count i = .ok a →
      element.elementSpan bytes offset length count j = .ok b →
        Beside (a.1 - element.lengthWidth, a.1 + a.2) (b.1 - element.lengthWidth, b.1 + b.2)) :
    (xs.map (Element.region element)).Pairwise Beside := by
  have number : xs.length = count := by rw [← elements.length_eq, List.length_range]
  rw [List.pairwise_map, List.pairwise_iff_getElem]
  intro i j hi hj before
  have here := (elements.get (by rwa [List.length_range, ← number]) hi).found
  have there := (elements.get (by rwa [List.length_range, ← number]) hj).found
  simp only [List.get_eq_getElem, List.getElem_range] at here there
  exact apart i j _ _ before here there

/-- A list is written again when its elements are; and if they share nothing, it is not longer. -/
theorem exists_rewrites_list {items : List Value} {maxElements : Nat}
    (counted : element.elementCount maxElements bytes offset length = .ok items.length)
    (filled : element.checkFilled items.length length = .ok ())
    (each : ∀ index (h : index < items.length), ∃ span k,
      element.elementSpan bytes offset length items.length index = .ok span ∧
        element.Rewrites items[index] k ∧ (element.Separate bytes span.1 span.2 → k ≤ span.2)) :
    ∃ k, (list element maxElements).Rewrites (.list items) k ∧
      ((list element maxElements).Separate bytes offset length → k ≤ length) := by
  have room := room_of_elementCount counted
  obtain ⟨xs, rfl, elements⟩ := exists_elements each
  have rewrites : ∀ x ∈ xs, element.Rewrites x.value x.length := by
    intro x hx
    exact (exists_left_of_mem elements hx).choose_spec.2.rewrites
  rw [List.length_map] at counted filled room elements
  have few := le_of_elementCount counted
  cases width : element.width? with
  | some w =>
      rw [checkFilled, width, refuseIf_eq_ok_iff, not_not] at filled
      exact ⟨_, rewrites_list_of_width? width few rewrites, fun _ => Nat.le_of_eq filled⟩
  | none =>
      rw [width, Option.getD_none] at room
      refine ⟨_, rewrites_list_of_none width few rewrites, fun separate => ?_⟩
      obtain ⟨apart, inner⟩ := separate _ counted
      refine listLength_le width room elements (pairwise_regions elements apart) ?_
      intro x hx
      obtain ⟨index, -, here⟩ := exists_left_of_mem elements hx
      exact here.short (inner index _ here.found)

/-- **What was read can be written** but for its floating point numbers and the limits; and where
no octets are shared it is not longer than before. -/
theorem exists_rewrites : ∀ (op : Operator) {bytes : Bytes} {offset length : Nat} {v : Value},
    op.Everywhere (fun codec => codec.table.Made) → op.decode bytes offset length = .ok v →
      (op.width? = none → length ≤ BigEndian.maximum op.lengthWidth) →
        ∃ k, op.Rewrites v k ∧ (op.Separate bytes offset length → k ≤ length)
  | .fixed kind limit, bytes, offset, length, v, _, decoded, _ => by
      rw [decode] at decoded
      obtain ⟨_, width, decoded⟩ := bind_eq_ok_iff.mp decoded
      rcases bind_eq_ok_iff.mp decoded with ⟨p, -, eq⟩
      cases pure_eq_ok_iff.mp eq
      rw [refuseIf_eq_ok_iff, not_not] at width
      exact ⟨kind.width, rewrites_fixed p, fun _ => Nat.le_of_eq width.symm⟩
  | .string, bytes, offset, length, v, _, decoded, fits => by
      rw [decode] at decoded
      obtain ⟨p, sliced, decoded⟩ := bind_eq_ok_iff.mp decoded
      obtain ⟨-, size⟩ := Bytes.partAt_of_slice sliced
      split at decoded
      · next s text =>
        cases pure_eq_ok_iff.mp decoded
        rw [Text.eq_utf8_of_ofUtf8? text, Text.size_utf8] at size
        have short : s.utf8ByteSize ≤ BigEndian.maximum 2 := size ▸ fits rfl
        exact ⟨_, rewrites_string short, fun _ => Nat.le_of_eq size⟩
      · exact absurd decoded throw_ne_ok
  | .binary, bytes, offset, length, v, _, decoded, fits => by
      rw [decode] at decoded
      obtain ⟨p, sliced, eq⟩ := bind_eq_ok_iff.mp decoded
      obtain ⟨-, size⟩ := Bytes.partAt_of_slice sliced
      cases pure_eq_ok_iff.mp eq
      have short : p.size ≤ BigEndian.maximum 4 := size ▸ fits rfl
      exact ⟨_, rewrites_binary short, fun _ => Nat.le_of_eq size⟩
  | .group codec, bytes, offset, length, v, made, decoded, _ => by
      obtain ⟨b, sliced, -, checked, rfl⟩ := decode_group_eq_ok_iff.mp decoded
      obtain ⟨-, size⟩ := Bytes.partAt_of_slice sliced
      exact ⟨_, rewrites_group (TableCodec.Everywhere.here made) checked,
        fun _ => Nat.le_of_eq size⟩
  | .list element maxElements, bytes, offset, length, v, made, decoded, _ => by
      rcases decode_list_eq_ok_iff.mp decoded with ⟨items, rfl, counted, filled, each⟩
      refine exists_rewrites_list counted filled fun index bound => ?_
      obtain ⟨span, found, inside⟩ := bind_eq_ok_iff.mp (each index bound)
      obtain ⟨k, rewrites, short⟩ := exists_rewrites element made.element inside
        fun unfixed => (elementSpan_of_none unfixed found).2
      exact ⟨span, k, found, rewrites, short⟩

/-! ## Values that are accepted -/

theorem floatsWithin_of_accepts : ∀ {op : Operator} {v : Value}, op.accepts v = true →
    op.FloatsWithin v
  | .fixed kind limit, .scalar s, accepted => by
      cases kind <;> cases s <;>
        simp_all [accepts, FloatsWithin, Scalar.fits, Scalar.kind, FixedKind.primitive]
  | .list element maxElements, .list items, accepted => by
      rw [accepts, Bool.and_eq_true, List.all_eq_true] at accepted
      intro v hv
      exact floatsWithin_of_accepts (accepted.2 v hv)
  | .fixed .., .list _, _ | .fixed .., .group _, _ | .list .., .scalar _, _
  | .list .., .group _, _ => by simp [FloatsWithin]
  | .string, _, _ | .binary, _, _ | .group _, _, _ => by simp [FloatsWithin]

/-- A value that is accepted and has a payload. -/
theorem rewrites_of_payload (accepted : op.accepts v = true) (written : op.payload v = .ok p) :
    op.Rewrites v p.size := by
  have floats := floatsWithin_of_accepts accepted
  exact ⟨size_of_payload written, ⟨fun _ => floats, fun _ => accepted⟩, fun _ _ => ⟨p, written⟩,
    fun unfixed small => fits_of_payload written (isFixed_eq_false_iff.mpr unfixed) small⟩

end Operator

end RecordFormat
