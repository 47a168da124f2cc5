import RecordFormat.Proofs.Buffer.Assembly
import RecordFormat.Proofs.Traversal
import RecordFormat.Record.Encoding

/-!
# What was written

Each writer is inverted once: what a value must be for its payload to exist, and what the
payload then is. The announced length is that of the payload (`Operator.size_of_payload`), so
a block is the length slot of its payload and the payload (`Operator.block_eq_ok_iff`).
-/

namespace RecordFormat

open Outcome

variable {α : Type}

/-! ## Records -/

/-- A record that is not its buffer has changes. -/
theorem Record.dirty_of_no_clean_buffer {r : Record}
    (other : ∀ b, r.buffer = some b → r.isDirty = false → False) : r.isDirty = true := by
  cases buffered : r.buffer with
  | none => simp [isDirty, buffered]
  | some b =>
      cases clean : r.isDirty with
      | true => rfl
      | false => exact (other b buffered clean).elim

theorem Record.toBytes_eq_ok_iff {r : Record} {p : Bytes} :
    r.toBytes = .ok p ↔ (∃ b, r.buffer = some b ∧ r.isDirty = false ∧ p = b.bytes) ∨
      (r.isDirty = true ∧ ∃ cs, r.contents = .ok cs ∧ r.codec.layout cs = .ok p) := by
  rw [Record.toBytes]
  split
  · next b buffered clean =>
    simp only [clean, buffered, Except.ok.injEq, Bool.false_eq_true, false_and, or_false,
      Option.some.injEq, true_and, exists_eq_left']
    exact eq_comm
  · next other =>
    have dirty : r.isDirty = true := dirty_of_no_clean_buffer other
    simp only [dirty, Bool.true_eq_false, false_and, and_false, exists_false, false_or, true_and]
    split
    · next cs contents =>
      simp only [contents, Except.ok.injEq, exists_eq_left', RecordError.lift,
        mapError_eq_ok_iff]
    · next e contents => simp [contents]

theorem Record.toBytes_of_clean {r : Record} {b : RecordBuffer} (buffered : r.buffer = some b)
    (clean : r.isDirty = false) : r.toBytes = .ok b.bytes :=
  toBytes_eq_ok_iff.mpr (.inl ⟨b, buffered, clean, rfl⟩)

theorem Record.byteLength_eq_ok_iff {r : Record} {n : Nat} :
    r.byteLength = .ok n ↔ (∃ b, r.buffer = some b ∧ r.isDirty = false ∧ n = b.size) ∨
      (r.isDirty = true ∧ ∃ cs, r.contents = .ok cs ∧ layoutLength cs = .ok n) := by
  rw [Record.byteLength]
  split
  · next b buffered clean =>
    simp only [clean, buffered, Except.ok.injEq, Bool.false_eq_true, false_and, or_false,
      Option.some.injEq, true_and, exists_eq_left']
    exact eq_comm
  · next other =>
    have dirty : r.isDirty = true := dirty_of_no_clean_buffer other
    simp only [dirty, Bool.true_eq_false, false_and, and_false, exists_false, false_or, true_and]
    split
    · next cs contents =>
      simp only [contents, Except.ok.injEq, exists_eq_left', RecordError.lift,
        mapError_eq_ok_iff]
    · next e contents => simp [contents]

theorem layoutLength_eq_ok_iff {cs : List (Slot × Value)} {n : Nat} :
    layoutLength cs = .ok n ↔
      ∃ sizes, List.Forall₂ (fun e k => e.1.operator.size e.2 = .ok k) cs sizes ∧
        n = RecordBuffer.headerLength +
          total (cs.map fun e => RecordBuffer.entryLength + e.1.operator.lengthWidth) +
          total sizes := by
  rw [layoutLength, bind_eq_ok_iff]
  apply exists_congr
  intro sizes
  rw [mapM_attach (fun e : Slot × Value => e.1.operator.size e.2), mapM_eq_ok_iff,
    pure_eq_ok_iff, eq_comm (a := n)]

theorem TableCodec.checkLength_eq_ok_iff {c : TableCodec} {n : Nat} {u : Unit} :
    c.checkLength n = .ok u ↔ n ≤ c.limits.maxRecordSize ∧ n ≤ BigEndian.maximum 4 := by
  rw [checkLength, bind_eq_ok_iff]
  simp only [refuseIf_eq_ok_iff, exists_const, Nat.not_lt]

/-- A block written for a slot, under the slot's number. -/
def IsBlock (e : Slot × Value) (block : Int16 × Bytes) : Prop :=
  block.1 = e.1.field.id ∧ e.1.operator.block e.1.field.type.text e.2 = .ok block.2

theorem TableCodec.layout_eq_ok_iff {c : TableCodec} {cs : List (Slot × Value)} {bytes : Bytes} :
    c.layout cs = .ok bytes ↔ ∃ n blocks, layoutLength cs = .ok n ∧
      n ≤ c.limits.maxRecordSize ∧ n ≤ BigEndian.maximum 4 ∧
      List.Forall₂ IsBlock (writingOrder cs) blocks ∧
      bytes = assemble n c.table.version blocks := by
  have each (e : Slot × Value) (block : Int16 × Bytes) :
      (do return (e.1.field.id, ← e.1.operator.block e.1.field.type.text e.2) :
        Except CodecError (Int16 × Bytes)) = .ok block ↔ IsBlock e block := by
    rw [bind_eq_ok_iff, IsBlock]
    obtain ⟨id, octets⟩ := block
    simp only [pure_eq_ok_iff, Prod.mk.injEq]
    constructor
    · rintro ⟨_, block, rfl, rfl⟩
      exact ⟨rfl, block⟩
    · rintro ⟨rfl, block⟩
      exact ⟨_, block, rfl, rfl⟩
  rw [layout, bind_eq_ok_iff]
  apply exists_congr
  intro n
  rw [bind_eq_ok_iff]
  simp only [checkLength_eq_ok_iff]
  constructor
  · rintro ⟨length, -, ⟨within, fits⟩, rest⟩
    obtain ⟨blocks, written, eq⟩ := bind_eq_ok_iff.mp rest
    rw [mapM_attach (fun e : Slot × Value =>
      (do return (e.1.field.id, ← e.1.operator.block e.1.field.type.text e.2))),
      mapM_eq_ok_iff] at written
    exact ⟨blocks, length, within, fits, written.imp fun e block => (each e block).mp,
      (pure_eq_ok_iff.mp eq).symm⟩
  · rintro ⟨blocks, length, within, fits, written, rfl⟩
    refine ⟨length, (), ⟨within, fits⟩, bind_eq_ok_iff.mpr ⟨blocks, ?_, rfl⟩⟩
    rw [mapM_attach (fun e : Slot × Value =>
      (do return (e.1.field.id, ← e.1.operator.block e.1.field.type.text e.2))), mapM_eq_ok_iff]
    exact written.imp fun e block => (each e block).mpr

/-! ## Payloads -/

namespace Operator

theorem payload_fixed_eq_ok_iff {kind : FixedKind} {limit : Binary64} {v : Value} {p : Bytes} :
    (fixed kind limit).payload v = .ok p ↔
      ∃ s, v = .scalar s ∧ s.fits kind.primitive limit ∧ kind.write? s = some p := by
  cases v with
  | scalar s =>
      rw [payload]
      by_cases fits : s.fits kind.primitive limit = true
      · cases written : kind.write? s <;> simp [fits, written]
      · simp [fits]
  | list items => simp [payload]
  | group r => simp [payload]

theorem payload_string_eq_ok_iff {v : Value} {p : Bytes} :
    string.payload v = .ok p ↔
      ∃ s, v = .scalar (.string s) ∧ s.utf8ByteSize ≤ BigEndian.maximum 2 ∧ p = Text.utf8 s := by
  rcases v with s | items | r
  · cases s with
    | string s =>
        rw [payload, bind_eq_ok_iff]
        simp only [refuseIf_eq_ok_iff, pure_eq_ok_iff, exists_const, Nat.not_lt,
          Value.scalar.injEq, Scalar.string.injEq, exists_eq_left', eq_comm (a := p)]
    | _ => simp [payload]
  · simp [payload]
  · simp [payload]

theorem payload_binary_eq_ok_iff {v : Value} {p : Bytes} :
    binary.payload v = .ok p ↔
      v = .scalar (.binary p) ∧ p.size ≤ BigEndian.maximum 4 := by
  rcases v with s | items | r
  · cases s with
    | binary b =>
        rw [payload, bind_eq_ok_iff]
        simp only [refuseIf_eq_ok_iff, pure_eq_ok_iff, exists_const, Nat.not_lt,
          Value.scalar.injEq, Scalar.binary.injEq]
        constructor
        · rintro ⟨small, rfl⟩
          exact ⟨rfl, small⟩
        · rintro ⟨rfl, small⟩
          exact ⟨small, rfl⟩
    | _ => simp [payload]
  · simp [payload]
  · simp [payload]

theorem payload_group_eq_ok_iff {codec : TableCodec} {v : Value} {p : Bytes} :
    (group codec).payload v = .ok p ↔
      ∃ r, v = .group r ∧ r.codec.table.name = codec.table.name ∧ r.toBytes = .ok p := by
  cases v with
  | scalar s => simp [payload]
  | list items => simp [payload]
  | group r =>
      rw [payload]
      by_cases same : r.codec.table.name = codec.table.name
      · simp [foreign, same, RecordError.nest, mapError_eq_ok_iff]
      · simp [foreign, same]

/-- Where the elements of a list begin, if that is written down. -/
def elementIndex (element : Operator) (blocks : List Bytes) : List Nat :=
  if element.isFixed then [] else positions (countWidth + blocks.length * positionWidth) blocks

/-- Element count, positions and blocks. -/
def listOctets (element : Operator) (blocks : List Bytes) : Bytes :=
  BigEndian.encode countWidth blocks.length ++
    Bytes.join ((elementIndex element blocks).map (BigEndian.encode positionWidth)) ++
    Bytes.join blocks

theorem size_of_mem_positions {found : List Nat} : ∀ part ∈
    found.map (BigEndian.encode positionWidth), part.size = positionWidth := by
  intro part h
  rcases List.mem_map.mp h with ⟨n, -, rfl⟩
  exact BigEndian.size_encode _ _

theorem size_elementIndex (element : Operator) (blocks : List Bytes) :
    (Bytes.join ((elementIndex element blocks).map (BigEndian.encode positionWidth))).size =
      (elementIndex element blocks).length * positionWidth := by
  rw [Bytes.size_join_of_width size_of_mem_positions, List.length_map]

theorem size_listOctets (element : Operator) (blocks : List Bytes) :
    (listOctets element blocks).size =
      countWidth + (elementIndex element blocks).length * positionWidth +
        (Bytes.join blocks).size := by
  rw [listOctets, ByteArray.size_append, ByteArray.size_append, BigEndian.size_encode,
    size_elementIndex]

theorem elementIndex_of_width? {element : Operator} {width : Nat} (blocks : List Bytes)
    (h : element.width? = some width) : elementIndex element blocks = [] :=
  if_pos (by simp [isFixed, h])

theorem elementIndex_of_none {element : Operator} (blocks : List Bytes)
    (h : element.width? = none) : elementIndex element blocks =
      positions (countWidth + blocks.length * positionWidth) blocks :=
  if_neg (by simp [isFixed, h])

theorem payload_list_eq_ok_iff {element : Operator} {maxElements : Nat} {v : Value} {p : Bytes} :
    (list element maxElements).payload v = .ok p ↔
      ∃ items blocks, v = .list items ∧ items.length ≤ maxElements ∧
        List.Forall₂ (fun x block => element.block element.typeText x = .ok block) items blocks ∧
        p = listOctets element blocks := by
  cases v with
  | scalar s => simp [payload]
  | group r => simp [payload]
  | list items =>
      rw [payload, bind_eq_ok_iff]
      simp only [refuseIf_eq_ok_iff, exists_const, Nat.not_lt, Value.list.injEq,
        exists_and_left, exists_eq_left']
      apply and_congr_right
      intro _
      rw [bind_eq_ok_iff]
      apply exists_congr
      intro blocks
      rw [mapM_attach (fun x : Value => element.block element.typeText x), mapM_eq_ok_iff]
      apply and_congr_right
      intro written
      rw [pure_eq_ok_iff, written.length_eq, eq_comm]
      rfl

/-! ## Lengths -/

/-- The length slot of a payload, and the payload. -/
def framed (op : Operator) (p : Bytes) : Bytes := BigEndian.encode op.lengthWidth p.size ++ p

theorem size_framed (op : Operator) (p : Bytes) :
    (op.framed p).size = op.lengthWidth + p.size := by
  rw [framed, ByteArray.size_append, BigEndian.size_encode]

theorem lengthWidth_of_isFixed : ∀ {op : Operator}, op.isFixed = true → op.lengthWidth = 0
  | .fixed .., _ => rfl

theorem lengthWidth_pos : ∀ {op : Operator}, op.isFixed = false → 0 < op.lengthWidth
  | .string, _ | .binary, _ | .group _, _ | .list .., _ => Nat.succ_pos _

/-- A block is its payload behind the length slot, which it must fit. -/
theorem block_eq_ok_iff_of_size {op : Operator} {type : String} {v : Value} {block : Bytes}
    (size : ∀ p, op.payload v = .ok p → op.size v = .ok p.size) :
    op.block type v = .ok block ↔ ∃ p, op.payload v = .ok p ∧
      (op.isFixed = false → p.size ≤ BigEndian.maximum op.lengthWidth) ∧ block = op.framed p := by
  rw [Operator.block]
  cases fixed : op.isFixed with
  -- Without a length slot the frame is the payload itself.
  | true =>
      have none : ∀ p, op.framed p = p := by
        intro p
        rw [framed, lengthWidth_of_isFixed fixed]
        exact ByteArray.empty_append
      simp [none, eq_comm]
  | false =>
      have pos := lengthWidth_pos fixed
      simp only [Bool.false_eq_true, if_false, forall_const]
      rw [bind_eq_ok_iff]
      constructor
      · rintro ⟨n, announced, rest⟩
        obtain ⟨slot, fits, rest⟩ := bind_eq_ok_iff.mp rest
        rcases bind_eq_ok_iff.mp rest with ⟨p, written, eq⟩
        obtain rfl := pure_eq_ok_iff.mp eq
        rw [size p written, Except.ok.injEq] at announced
        subst announced
        -- What was announced is the payload's length, so the slot was large enough for it.
        unfold lengthSlot at fits
        split at fits
        · cases fits
        · cases fits
          exact ⟨p, written, by omega, rfl⟩
      · rintro ⟨p, written, fits, rfl⟩
        refine ⟨p.size, size p written, bind_eq_ok_iff.mpr
          ⟨BigEndian.encode op.lengthWidth p.size, ?_, bind_eq_ok_iff.mpr ⟨p, written, rfl⟩⟩⟩
        unfold lengthSlot
        rw [if_neg (by omega)]

end Operator

theorem writingOrder_perm (cs : List (Slot × Value)) : (writingOrder cs).Perm cs :=
  List.filter_append_perm (fun e : Slot × Value => e.1.operator.isFixed) cs

theorem total_add (f g : α → Nat) : ∀ (xs : List α),
    total (xs.map fun x => f x + g x) = total (xs.map f) + total (xs.map g)
  | [] => rfl
  | x :: rest => by
      have ih := total_add f g rest
      simp only [total, List.map_cons, List.foldr_cons] at ih ⊢
      omega

theorem total_const (n : Nat) (xs : List α) : total (xs.map fun _ => n) = xs.length * n := by
  rw [List.map_const']
  exact List.sum_replicate_nat

theorem total_perm {xs ys : List Nat} (h : xs.Perm ys) : total xs = total ys := h.sum_nat

/-- A record is as long as its contents announce, if each of them is. -/
theorem TableCodec.layoutLength_of_layout {c : TableCodec} {cs : List (Slot × Value)}
    {bytes : Bytes}
    (size : ∀ e ∈ cs, ∀ p, e.1.operator.payload e.2 = .ok p → e.1.operator.size e.2 = .ok p.size)
    (h : c.layout cs = .ok bytes) : layoutLength cs = .ok bytes.size := by
  obtain ⟨n, blocks, length, -, -, written, rfl⟩ := layout_eq_ok_iff.mp h
  rcases layoutLength_eq_ok_iff.mp length with ⟨sizes, announced, rfl⟩
  -- What a slot announces, as a function of the slot and its value.
  let announce (e : Slot × Value) : Nat := (e.1.operator.size e.2).toOption.getD 0
  have listed : cs.map announce = sizes.map id :=
    map_eq_map_of_forall₂ (announced.imp fun e k size => by simp [announce, size, Except.toOption])
  have each : (writingOrder cs).map (fun e => e.1.operator.lengthWidth + announce e) =
      blocks.map fun b => b.2.size := by
    refine map_eq_map_of_forall₂ (forall₂_imp_of_mem written fun e he b _ block => ?_)
    have own := size e ((writingOrder_perm cs).mem_iff.mp he)
    obtain ⟨p, payload, -, eq⟩ := (Operator.block_eq_ok_iff_of_size own).mp block.2
    rw [eq, Operator.size_framed]
    simp [announce, own p payload, Except.toOption]
  have count : blocks.length = cs.length :=
    written.length_eq.symm.trans (writingOrder_perm cs).length_eq
  rw [length, RecordBuffer.size_assemble, Bytes.size_join, List.map_map]
  rw [List.map_id] at listed
  have data : total (blocks.map (ByteArray.size ∘ Prod.snd)) =
      total (cs.map fun e => e.1.operator.lengthWidth + announce e) := by
    rw [show ByteArray.size ∘ Prod.snd = fun b : Int16 × Bytes => b.2.size from rfl, ← each]
    exact total_perm ((writingOrder_perm cs).map _)
  rw [data, total_add, total_add, total_const, listed, RecordBuffer.dataStartFor, count]
  congr 1
  omega

/-- The fixed width is what is announced. -/
theorem Operator.size_of_width? {op : Operator} {width : Nat} (v : Value)
    (h : op.width? = some width) : op.size v = .ok width := by
  cases op with
  | fixed kind limit =>
      cases h
      rw [Operator.size]
  | _ => cases h

theorem Operator.isFixed_eq_false_iff {op : Operator} : op.isFixed = false ↔ op.width? = none := by
  cases op <;> simp [isFixed, width?]

/-- The blocks of a list's items, each of the length that is announced for its item. -/
theorem Operator.size_list_of_blocks {element : Operator} {maxElements : Nat}
    {items : List Value} {blocks : List Bytes}
    (sizes : List.Forall₂ (fun x block => ∃ n, element.size x = .ok n ∧
      block.size = element.lengthWidth + n) items blocks) :
    (list element maxElements).size (.list items) = .ok (listOctets element blocks).size := by
  rw [Operator.size, size_listOctets]
  cases width : element.width? with
  | some w =>
      have fixed : element.isFixed = true := by simp [isFixed, width]
      have widths : ∀ block ∈ blocks, block.size = w := by
        intro block hb
        obtain ⟨x, -, n, announced, size⟩ := exists_left_of_mem sizes hb
        rw [size_of_width? x width, Except.ok.injEq] at announced
        rw [size, lengthWidth_of_isFixed fixed, Nat.zero_add, announced]
      rw [elementIndex_of_width? blocks width, Bytes.size_join_of_width widths, sizes.length_eq]
      rfl
  | none =>
      have announced : items.mapM element.size =
          .ok (blocks.map fun block => block.size - element.lengthWidth) := by
        rw [mapM_eq_ok_iff, List.forall₂_map_right_iff]
        apply sizes.imp
        intro x block hx
        obtain ⟨n, announced, size⟩ := hx
        rw [announced, size, Nat.add_sub_cancel_left]
      have each : (blocks.map fun block => block.size - element.lengthWidth).map
          (fun n => positionWidth + element.lengthWidth + n) =
          blocks.map fun block => positionWidth + block.size := by
        rw [List.map_map]
        apply List.map_congr_left
        intro block hb
        obtain ⟨x, -, n, -, size⟩ := exists_left_of_mem sizes hb
        simp only [Function.comp_apply]
        omega
      have attached := mapM_attach element.size items
      rw [announced] at attached
      simp only [attached]
      rw [elementIndex_of_none blocks width, Bytes.length_positions, Bytes.size_join]
      apply congrArg Except.ok
      rw [each, total_add, total_const]
      omega

/-- **The announced length is that of the payload.** -/
theorem Operator.size_of_payload {op : Operator} {v : Value} {p : Bytes}
    (h : op.payload v = .ok p) : op.size v = .ok p.size := by
  match op with
  | .fixed kind limit =>
      obtain ⟨s, rfl, -, written⟩ := payload_fixed_eq_ok_iff.mp h
      rcases Option.map_eq_some_iff.mp written with ⟨n, -, rfl⟩
      rw [Operator.size, BigEndian.size_encode]
  | .string =>
      obtain ⟨s, rfl, -, rfl⟩ := payload_string_eq_ok_iff.mp h
      rw [Operator.size, Text.size_utf8]
  | .binary =>
      rcases payload_binary_eq_ok_iff.mp h with ⟨rfl, -⟩
      rw [Operator.size]
  | .group codec =>
      obtain ⟨r, rfl, same, written⟩ := payload_group_eq_ok_iff.mp h
      rw [Operator.size, if_neg (by simp [foreign, same])]
      apply mapError_eq_ok_iff.mpr
      apply Record.byteLength_eq_ok_iff.mpr
      rcases Record.toBytes_eq_ok_iff.mp written with
        ⟨b, buffered, clean, rfl⟩ | ⟨dirty, cs, contents, laid⟩
      · exact .inl ⟨b, buffered, clean, rfl⟩
      · refine .inr ⟨dirty, cs, contents,
          TableCodec.layoutLength_of_layout (fun e he q hq => ?_) laid⟩
        have inner : e.2.depth < r.depth :=
          Nat.lt_of_le_of_lt (depth_le_depthOfContents he) (Record.depth_of_contents contents)
        exact size_of_payload hq
  | .list element maxElements =>
      rcases payload_list_eq_ok_iff.mp h with ⟨items, blocks, rfl, -, written, rfl⟩
      have own : ∀ x ∈ items, ∀ q, element.payload x = .ok q → element.size x = .ok q.size := by
          intro x hx q hq
          have inner : x.depth < (Value.list items).depth :=
            Nat.lt_succ_of_le (Value.depth_le_depthOfItems hx)
          exact size_of_payload hq
      refine size_list_of_blocks (forall₂_imp_of_mem written fun x hx block _ hb => ?_)
      obtain ⟨q, payload, -, rfl⟩ := (block_eq_ok_iff_of_size (own x hx)).mp hb
      exact ⟨q.size, own x hx q payload, size_framed element q⟩
termination_by v.depth

/-- **The announced length is that of the record.** -/
theorem Record.byteLength_of_toBytes {r : Record} {b : Bytes} (h : r.toBytes = .ok b) :
    r.byteLength = .ok b.size := by
  apply Record.byteLength_eq_ok_iff.mpr
  rcases Record.toBytes_eq_ok_iff.mp h with
    ⟨b, buffered, clean, rfl⟩ | ⟨dirty, cs, contents, laid⟩
  · exact .inl ⟨b, buffered, clean, rfl⟩
  · exact .inr ⟨dirty, cs, contents,
      TableCodec.layoutLength_of_layout (fun _ _ _ => Operator.size_of_payload) laid⟩

/-- **What the header tells is the length of what is written**: what is announced before any block
is there is what the header, the index and the blocks take up in the end. -/
theorem TableCodec.exists_blocks_of_layout {c : TableCodec} {cs : List (Slot × Value)}
    {bytes : Bytes} (laid : c.layout cs = .ok bytes) :
    ∃ announced blocks,
      announced = RecordBuffer.dataStartFor blocks + (Bytes.join (blocks.map Prod.snd)).size ∧
      announced ≤ c.limits.maxRecordSize ∧ announced ≤ BigEndian.maximum 4 ∧
      List.Forall₂ IsBlock (writingOrder cs) blocks ∧
      bytes = assemble announced c.table.version blocks := by
  have length := layoutLength_of_layout (fun _ _ _ => Operator.size_of_payload) laid
  obtain ⟨announced, blocks, known, within, fits, written, rfl⟩ := layout_eq_ok_iff.mp laid
  rw [known, Except.ok.injEq, RecordBuffer.size_assemble] at length
  exact ⟨announced, blocks, length, within, fits, written, rfl⟩

/-- A block is its payload behind the length slot, which it must fit. -/
theorem Operator.block_eq_ok_iff {op : Operator} {type : String} {v : Value} {block : Bytes} :
    op.block type v = .ok block ↔ ∃ p, op.payload v = .ok p ∧
      (op.isFixed = false → p.size ≤ BigEndian.maximum op.lengthWidth) ∧ block = op.framed p :=
  block_eq_ok_iff_of_size fun _ => size_of_payload

/-- Payloads that a length slot of four octets is large enough for fit their own length slot. -/
theorem Operator.fits_of_payload {op : Operator} {v : Value} {p : Bytes}
    (written : op.payload v = .ok p) (unfixed : op.isFixed = false)
    (small : p.size ≤ BigEndian.maximum 4) : p.size ≤ BigEndian.maximum op.lengthWidth := by
  cases op with
  | fixed kind limit => cases unfixed
  | string =>
      obtain ⟨s, -, short, rfl⟩ := payload_string_eq_ok_iff.mp written
      rw [Text.size_utf8]
      exact short
  | binary | group | list => exact small

/-- The length of a record with these payloads. -/
def lengthFor (cs : List (Slot × Value)) (payloads : List Bytes) : Nat :=
  RecordBuffer.headerLength +
    total (cs.map fun e => RecordBuffer.entryLength + e.1.operator.lengthWidth) +
    total (payloads.map ByteArray.size)

/-- Contents that can be written, and are short enough, make a record. -/
theorem TableCodec.exists_layout (c : TableCodec) (cs : List (Slot × Value))
    {payloads : List Bytes} (written : List.Forall₂ (fun e p => e.1.operator.payload e.2 = .ok p ∧
      (e.1.operator.isFixed = false → p.size ≤ BigEndian.maximum e.1.operator.lengthWidth))
      cs payloads)
    (within : lengthFor cs payloads ≤ c.limits.maxRecordSize)
    (fits : lengthFor cs payloads ≤ BigEndian.maximum 4) :
    ∃ bytes, c.layout cs = .ok bytes ∧ bytes.size = lengthFor cs payloads := by
  have length : layoutLength cs = .ok (lengthFor cs payloads) := by
    refine layoutLength_eq_ok_iff.mpr ⟨payloads.map ByteArray.size, ?_, rfl⟩
    rw [List.forall₂_map_right_iff]
    exact written.imp fun e p h => Operator.size_of_payload h.1
  have blocks : ∀ e ∈ writingOrder cs, ∃ block, IsBlock e block := by
    intro e he
    obtain ⟨p, -, payload, frames⟩ :=
      exists_right_of_mem written ((writingOrder_perm cs).mem_iff.mp he)
    exact ⟨(e.1.field.id, e.1.operator.framed p), rfl,
      Operator.block_eq_ok_iff.mpr ⟨p, payload, frames, rfl⟩⟩
  obtain ⟨blocks, written⟩ := exists_forall₂ blocks
  have laid := layout_eq_ok_iff.mpr ⟨_, blocks, length, within, fits, written, rfl⟩
  have announced := layoutLength_of_layout (fun _ _ _ => Operator.size_of_payload) laid
  rw [length, Except.ok.injEq] at announced
  exact ⟨_, laid, announced.symm⟩

end RecordFormat
