import RecordFormat.Proofs.Codec.Appending
import RecordFormat.Proofs.Octets.Spans
import RecordFormat.Proofs.Record.Edits
import RecordFormat.Proofs.Registry.RoundTrip

/-!
# Announced lengths

The length of a payload is announced by one recursion and the payload is written by another. The
two agree: whatever is written has the announced length, and a record whose announced length is
within the limits is written (`Record.announced`).
-/

namespace RecordFormat

open Outcome

/-- Every record in the value, in lists and among staged values at every depth, is of a codec with
`P`. -/
inductive Value.Bound (P : TableCodec → Prop) : Value → Prop
  | scalar (s : Scalar) : Bound P (.scalar s)
  | list {items : List Value} : (∀ v ∈ items, Bound P v) → Bound P (.list items)
  | group {r : Record} : P r.codec → (∀ e ∈ r.pending, Bound P e.2) → Bound P (.group r)

namespace Value.Bound

variable {P Q : TableCodec → Prop} {v : Value} {r : Record}

theorem imp (h : v.Bound P) (imp : ∀ c, P c → Q c) : v.Bound Q := by
  induction h with
  | scalar s => exact .scalar s
  | list _ ih => exact .list ih
  | group here _ ih => exact .group (imp _ here) ih

theorem codec (h : (Value.group r).Bound P) : P r.codec := by
  cases h
  assumption

theorem staged (h : (Value.group r).Bound P) : ∀ e ∈ r.pending, e.2.Bound P := by
  cases h
  assumption

theorem items {xs : List Value} (h : (Value.list xs).Bound P) : ∀ v ∈ xs, v.Bound P := by
  cases h
  assumption

end Value.Bound

/-- What an operator reads is of the codecs inside it. -/
theorem Operator.bound_of_decode {P : TableCodec → Prop} : ∀ {op : Operator} {bytes : Bytes}
    {offset length : Nat} {v : Value}, op.Everywhere P → op.decode bytes offset length = .ok v →
      v.Bound fun c => c.Everywhere P
  | .fixed .., _, _, _, _, _, decoded => by
      rw [decode] at decoded
      obtain ⟨_, -, decoded⟩ := bind_eq_ok_iff.mp decoded
      obtain ⟨_, -, decoded⟩ := bind_eq_ok_iff.mp decoded
      exact pure_eq_ok_iff.mp decoded ▸ .scalar _
  | .string, _, _, _, _, _, decoded => by
      rw [decode] at decoded
      obtain ⟨_, -, decoded⟩ := bind_eq_ok_iff.mp decoded
      split at decoded
      · exact pure_eq_ok_iff.mp decoded ▸ .scalar _
      · exact absurd decoded throw_ne_ok
  | .binary, _, _, _, _, _, decoded => by
      rw [decode] at decoded
      obtain ⟨_, -, decoded⟩ := bind_eq_ok_iff.mp decoded
      exact pure_eq_ok_iff.mp decoded ▸ .scalar _
  | .group codec, _, _, _, _, inside, decoded => by
      obtain ⟨b, -, -, -, rfl⟩ := decode_group_eq_ok_iff.mp decoded
      refine .group inside fun e he => ?_
      cases he
  | .list element _, _, _, _, _, inside, decoded => by
      rcases decode_list_eq_ok_iff.mp decoded with ⟨items, rfl, -, -, each⟩
      refine .list fun v hv => ?_
      obtain ⟨index, bound, rfl⟩ := List.mem_iff_getElem.mp hv
      obtain ⟨span, -, decoded⟩ := bind_eq_ok_iff.mp (each index bound)
      exact bound_of_decode inside.element decoded

namespace Record

variable {P : TableCodec → Prop} {r : Record} {m : IdMap Value} {n : Nat}

/-- The values of a record are of the codecs inside its own, or are staged. -/
theorem bound_of_values (bound : (Value.group r).Bound fun c => c.Everywhere P)
    (read : r.values = .ok m) {e : Int16 × Value} (mem : e ∈ m) :
    e.2.Bound fun c => c.Everywhere P := by
  obtain ⟨k, kept, eq⟩ := bind_eq_ok_iff.mp read
  obtain rfl := pure_eq_ok_iff.mp eq
  rcases IdMap.mem_insertAll mem with mem | mem
  · unfold Record.kept at kept
    split at kept
    · obtain ⟨all, decoded, eq⟩ := bind_eq_ok_iff.mp kept
      obtain rfl := pure_eq_ok_iff.mp eq
      obtain ⟨⟨s, offset⟩, known, -, read⟩ :=
        exists_left_of_mem (TableCodec.forall₂_of_decodeAll decoded) (List.mem_filter.mp mem).1
      obtain ⟨span, -, inside⟩ := bind_eq_ok_iff.mp read
      have hs := TableCodec.mem_of_slot? (TableCodec.mem_knownEntries.mp known).1
      exact Operator.bound_of_decode (bound.codec.slot hs) inside
    · cases kept
      cases mem
  · exact bound.staged e mem

/-- A record within the limit is written, if values less deep are that are accepted and announce
as much. -/
theorem exists_toBytes {limit : Nat} (small : limit ≤ BigEndian.maximum 4)
    (bound : (Value.group r).Bound fun c => c.Everywhere fun d => d.limits.maxRecordSize = limit)
    (length : r.byteLength = .ok n) (within : n ≤ limit)
    (inner : ∀ (op : Operator) v k, v.depth < r.depth →
      (v.Bound fun c => c.Everywhere fun d => d.limits.maxRecordSize = limit) →
        op.accepts v = true → op.size v = .ok k → k ≤ limit → ∃ p, op.payload v = .ok p) :
    ∃ b, r.toBytes = .ok b := by
  rcases byteLength_eq_ok_iff.mp length with ⟨b, buffered, clean, -⟩ | ⟨dirty, cs, contents, length⟩
  · exact ⟨b.bytes, toBytes_of_clean buffered clean⟩
  · obtain ⟨sizes, announced, total⟩ := layoutLength_eq_ok_iff.mp length
    have payload : ∀ e ∈ cs, ∃ p, e.1.operator.payload e.2 = .ok p ∧
        (e.1.operator.isFixed = false → p.size ≤ BigEndian.maximum e.1.operator.lengthWidth) := by
      intro e he
      obtain ⟨k, hk, size⟩ := exists_right_of_mem announced he
      have short : k ≤ limit := by
        refine Nat.le_trans ?_ within
        exact total ▸ Nat.le_trans (le_total_of_mem hk) (Nat.le_add_left _ _)
      have depth := Nat.lt_of_le_of_lt (depth_le_depthOfContents he) (depth_of_contents contents)
      obtain ⟨m, read, filled⟩ := bind_eq_ok_iff.mp contents
      obtain ⟨admits, rfl⟩ := TableCodec.contents_eq_ok_iff.mp filled
      obtain ⟨hs, value⟩ := TableCodec.mem_filled.mp he
      obtain ⟨p, written⟩ := inner _ _ k depth
        (bound_of_values bound read (IdMap.mem_of_find? value)) (admits.accepted _ hs _ value)
        size short
      have own := Operator.size_of_payload written
      rw [size, Except.ok.injEq] at own
      exact ⟨p, written, fun unfixed =>
        Operator.fits_of_payload written unfixed (own ▸ Nat.le_trans short small)⟩
    obtain ⟨payloads, written⟩ := exists_forall₂ payload
    have same : lengthFor cs payloads = n := by
      have sizes_eq : payloads.map ByteArray.size = sizes.map id := by
        refine map_eq_map_of_forall₂ (forall₂_of_common (fun e p k payload size => ?_) written
          announced)
        rwa [Operator.size_of_payload payload.1, Except.ok.injEq] at size
      rw [lengthFor, sizes_eq, List.map_id, total]
    have limit_eq := bound.codec.here
    obtain ⟨b, laid, -⟩ := r.codec.exists_layout cs written (by rw [same, limit_eq]; exact within)
      (same ▸ Nat.le_trans within small)
    exact ⟨b, toBytes_eq_ok_iff.mpr (.inr ⟨dirty, cs, contents, laid⟩)⟩

end Record

namespace Operator

theorem exists_write? {kind : FixedKind} {bound : Binary64} {s : Scalar}
    (fits : s.fits kind.primitive bound = true) : ∃ p, kind.write? s = some p := by
  cases kind <;> cases s <;> first
    | exact ⟨_, rfl⟩
    | simp [Scalar.fits, Scalar.kind, FixedKind.primitive] at fits

/-- The length of a list is at least what each item announces. -/
theorem size_le_of_size_list {element : Operator} {maxElements n : Nat} {items : List Value}
    (size : (list element maxElements).size (.list items) = .ok n) {x : Value} (hx : x ∈ items) :
    ∃ k, element.size x = .ok k ∧ k ≤ n := by
  rw [Operator.size] at size
  cases width : element.width? with
  | some w =>
      rw [width, Except.ok.injEq] at size
      have one : 0 < items.length := List.length_pos_of_mem hx
      refine ⟨w, size_of_width? x width, ?_⟩
      have := Nat.le_mul_of_pos_left w one
      omega
  | none =>
      simp only [width] at size
      obtain ⟨sizes, announced, eq⟩ := bind_eq_ok_iff.mp size
      rw [mapM_attach element.size, mapM_eq_ok_iff] at announced
      obtain rfl := pure_eq_ok_iff.mp eq
      obtain ⟨k, hk, own⟩ := exists_right_of_mem announced hx
      have := le_total_of_mem
        (List.mem_map_of_mem (f := fun n => positionWidth + element.lengthWidth + n) hk)
      exact ⟨k, own, by omega⟩

/-- What is accepted, and announces that it is short enough, is written: its records are of codecs
whose limit is one that lengths of four octets can reach. -/
theorem exists_payload {limit n : Nat} (small : limit ≤ BigEndian.maximum 4)
    {op : Operator} {v : Value}
    (bound : v.Bound fun c => c.Everywhere fun d => d.limits.maxRecordSize = limit)
    (accepted : op.accepts v = true) (size : op.size v = .ok n) (within : n ≤ limit) :
    ∃ p, op.payload v = .ok p := by
  match op, v with
  | .fixed kind float, .scalar s =>
      rw [accepts] at accepted
      obtain ⟨p, written⟩ := exists_write? accepted
      exact ⟨p, payload_fixed_eq_ok_iff.mpr ⟨s, rfl, accepted, written⟩⟩
  | .string, .scalar s =>
      cases s <;> simp [accepts, Scalar.fits, Scalar.kind] at accepted
      exact ⟨_, payload_string_eq_ok_iff.mpr ⟨_, rfl, accepted, rfl⟩⟩
  | .binary, .scalar s =>
      cases s <;> simp [accepts, Scalar.fits, Scalar.kind] at accepted
      exact ⟨_, payload_binary_eq_ok_iff.mpr ⟨rfl, accepted⟩⟩
  | .group codec, .group r =>
      rw [accepts, Bool.and_eq_true, decide_eq_true_eq] at accepted
      rw [Operator.size, if_neg (by simp [foreign, accepted.1])] at size
      obtain ⟨p, written⟩ := Record.exists_toBytes small bound (mapError_eq_ok_iff.mp size) within
        fun op v k depth => exists_payload small
      exact ⟨p, payload_group_eq_ok_iff.mpr ⟨r, rfl, accepted.1, written⟩⟩
  | .list element maxElements, .list items =>
      rw [accepts, Bool.and_eq_true, decide_eq_true_eq, List.all_eq_true] at accepted
      have blocks : ∀ x ∈ items, ∃ block, element.block element.typeText x = .ok block := by
        intro x hx
        have depth : x.depth < (Value.list items).depth :=
          Nat.lt_succ_of_le (Value.depth_le_depthOfItems hx)
        obtain ⟨k, own, short⟩ := size_le_of_size_list size hx
        have short := Nat.le_trans short within
        obtain ⟨p, written⟩ := exists_payload small (bound.items x hx) (accepted.2 x hx) own short
        rw [size_of_payload written, Except.ok.injEq] at own
        exact ⟨_, block_eq_ok_iff.mpr ⟨p, written, fun unfixed =>
          fits_of_payload written unfixed (own ▸ Nat.le_trans short small), rfl⟩⟩
      obtain ⟨blocks, written⟩ := exists_forall₂ blocks
      exact ⟨_, payload_list_eq_ok_iff.mpr ⟨items, blocks, rfl, accepted.1, written, rfl⟩⟩
  | .fixed .., .list _ | .fixed .., .group _ | .string, .list _ | .string, .group _
  | .binary, .list _ | .binary, .group _ | .group _, .scalar _ | .group _, .list _
  | .list .., .scalar _ | .list .., .group _ => simp [accepts] at accepted
termination_by v.depth

end Operator

namespace Record

/-- **The announced length is that of what is written.** Appending a value leaves what the buffer
holds and adds as many octets as the value announces. A record in any state, of codecs that
registries with these limits give, is written in as many octets as it announces; and where lengths
of four octets can reach the limit, it is written if it announces no more than the limit. -/
theorem announced (limits : Limits) :
    (∀ (op : Operator) v out out', op.appendTo out v = .ok out' →
      ∃ p, out' = out ++ p ∧ op.size v = .ok p.size) ∧
    ∀ r : Record, limits.maxRecordSize ≤ BigEndian.maximum 4 →
      ((Value.group r).Bound fun c => ∃ t, Registry.GivesCodec limits (fun _ => True) t c) →
        (∀ b, r.toBytes = .ok b → r.byteLength = .ok b.size) ∧
        ∀ n, r.byteLength = .ok n → n ≤ limits.maxRecordSize → ∃ b, r.toBytes = .ok b := by
  constructor
  · intro op v out out' appended
    rw [Operator.appendTo_eq, map_eq_ok_iff] at appended
    obtain ⟨p, written, rfl⟩ := appended
    exact ⟨p, rfl, Operator.size_of_payload written⟩
  · intro r small bound
    have limited := bound.imp fun c ⟨t, given⟩ =>
      (given.compiled nestedIn_true).inside.imp fun d compiled =>
        congrArg Limits.maxRecordSize compiled.limits_eq
    exact ⟨fun b => byteLength_of_toBytes, fun n length within =>
      exists_toBytes small limited length within fun op v k _ => Operator.exists_payload small⟩

end Record

namespace Household

theorem bound_resident : (Value.group resident).Bound fun c =>
    ∃ t, Registry.GivesCodec limits (fun _ => True) t c := by
  have address : Registry.GivesCodec limits (fun _ => True) address addressCodec := by
    refine ⟨trivial, { limits }, .fresh, ?_⟩
    rw [Table.codec_eq, layout_address]
    simp only [List.mapM_cons, List.mapM_nil, zip]
    rw [FieldType.operator]
    rfl
  refine .group ⟨person, givesCodec_person trivial⟩ fun e he => ?_
  simp only [resident, values, List.mem_cons, List.not_mem_nil, or_false] at he
  rcases he with rfl | rfl | rfl
  · exact .group ⟨_, address⟩ fun e he => List.mem_singleton.mp he ▸ .scalar _
  · exact .scalar _
  · exact .list fun v hv => List.mem_singleton.mp hv ▸ .scalar _

/-- A person is written in as many octets as it announces, also behind other octets. -/
theorem announced_resident : ∃ b out p, resident.toBytes = .ok b ∧
    resident.byteLength = .ok b.size ∧
    (Operator.group personCodec).appendTo (Bytes.zeros 3) (.group resident) = .ok out ∧
      out = Bytes.zeros 3 ++ p ∧
        (Operator.group personCodec).size (.group resident) = .ok p.size := by
  obtain ⟨bytes, encoded⟩ := encode_values
  have written : resident.toBytes = .ok bytes :=
    (Record.toBytes_eq_encode rfl (m := values) rfl).trans encoded
  obtain ⟨appends, records⟩ := Record.announced limits
  obtain ⟨length, writes⟩ := records resident (by decide) bound_resident
  obtain ⟨b, again⟩ := writes bytes.size (length bytes written) (TableCodec.size_of_encode encoded)
  have payload : (Operator.group personCodec).payload (.group resident) = .ok b :=
    Operator.payload_group_eq_ok_iff.mpr ⟨resident, rfl, rfl, again⟩
  have appended : (Operator.group personCodec).appendTo (Bytes.zeros 3) (.group resident) =
      .ok (Bytes.zeros 3 ++ b) := by
    rw [Operator.appendTo_eq, payload]
    rfl
  obtain ⟨p, eq, announced⟩ := appends _ _ _ _ appended
  exact ⟨b, _, p, again, length b again, appended, eq, announced⟩

end Household

end RecordFormat
