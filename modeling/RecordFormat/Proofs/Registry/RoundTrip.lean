import RecordFormat.Proofs.Codec.RoundTrip
import RecordFormat.Proofs.Registry.Compilation

/-!
# Encoding and decoding maps

The codecs that registries give out read back what they wrote. The tables inside must number
their stored fields apart, and group values must be readable records of the codecs that their
operators have.
-/

namespace RecordFormat

open Value (EqualMaps)

namespace TableCodec

/-- The codecs inside, when their tables number the stored fields apart. -/
theorem CompiledAs.sound {limits : Limits} {T : Table → Prop} {key : String × Int16}
    {c : TableCodec} (compiled : c.CompiledAs limits T key)
    (tables : c.Everywhere fun d => d.table.Numbered) :
    c.Everywhere (Sound limits.maxRecordSize) :=
  (compiled.inside.and tables).imp fun _ both => both.1.sound both.2

/-- **Round trip of records.** What a codec encodes is a consistent buffer within the size
limit, gives equal values under the same numbers, and is what these are encoded as. -/
theorem encode_round_trip {limits : Limits} {t : Table} {c : TableCodec} {m : IdMap Value}
    {bytes : Bytes} (given : Registry.GivesCodec limits (fun _ => True) t c)
    (tables : c.Everywhere fun d => d.table.Numbered) (sorted : IdMap.Sorted m)
    (fitting : c.HoldsAll (fun _ => True) m) (encoded : c.encode m = .ok bytes) :
    ∃ b n, RecordBuffer.ofBytes bytes limits.maxRecordSize = .ok b ∧ c.decodeAll b = .ok n ∧
      EqualMaps m n ∧ c.encode n = .ok bytes := by
  have compiled := given.compiled nestedIn_true
  have sound := compiled.sound tables
  have small : bytes.size ≤ limits.maxRecordSize := by
    rw [← compiled.inside.here.limits_eq]
    exact size_of_encode encoded
  obtain ⟨b, n, rfl, restored⟩ :=
    restored_of_encode Record.lasting_true sound fitting encoded small
  have admits := (encode_eq_ok_iff.mp encoded).1
  exact ⟨b, n, RecordBuffer.ofBytes_eq_ok_iff.mpr ⟨small, rfl⟩, restored.decoded,
    restored.equal admits sorted, restored.encode sound.here.distinct encoded⟩

end TableCodec

/-! ## A household

A table with a group, a number and a list, for the examples of this and later results. -/

namespace Household

def limits : Limits := ⟨1000, 10, ⟨0⟩⟩

def zip : Field := ⟨1, "zip", .primitive .int32, .required, none⟩

def address : Table := ⟨"Address", 1, [zip]⟩

def home : Field := ⟨1, "home", .bound address, .required, none⟩

def age : Field := ⟨2, "age", .primitive .int32, .required, none⟩

def names : Field := ⟨3, "names", .list (.primitive .string), .optional, none⟩

def person : Table := ⟨"Person", 1, [home, age, names]⟩

def addressCodec : TableCodec := ⟨address, limits, [⟨zip, .fixed .int32 ⟨0⟩⟩]⟩

def personCodec : TableCodec :=
  ⟨person, limits, [⟨home, .group addressCodec⟩, ⟨age, .fixed .int32 ⟨0⟩⟩,
    ⟨names, .list .string 10⟩]⟩

/-- A record that has not been written yet. -/
def place : Record := { Record.empty addressCodec with pending := [(1, .scalar (.int32 75011))] }

def values : IdMap Value :=
  [(1, .group place), (2, .scalar (.int32 7)), (3, .list [.scalar (.string "Ann")])]

/-- A person that holds `values` and has not been written yet. -/
def resident : Record := { Record.empty personCodec with pending := values }

theorem layout_address : address.layoutFields = [zip] :=
  List.mergeSort_of_pairwise (by decide)

theorem layout_person : person.layoutFields = [home, age, names] :=
  List.mergeSort_of_pairwise (by decide)

theorem givesCodec_person {T : Table → Prop} (asked : T person) :
    Registry.GivesCodec limits T person personCodec := by
  refine ⟨asked, { limits }, .fresh, ?_⟩
  rw [Table.codec_eq, layout_person]
  simp only [List.mapM_cons, List.mapM_nil, home, age, names]
  rw [FieldType.operator]
  dsimp only
  rw [Table.codec_eq, layout_address]
  simp only [List.mapM_cons, List.mapM_nil, zip]
  rw [FieldType.operator, FieldType.operator]
  dsimp only
  rw [FieldType.operator]
  rfl

theorem numbered_address : address.Numbered where
  made f hf := by
    rw [List.mem_singleton.mp hf]
    rfl
  distinct := by decide

theorem numbered_person : person.Numbered where
  made f hf := by
    simp only [person, List.mem_cons, List.not_mem_nil, or_false] at hf
    rcases hf with rfl | rfl | rfl <;> rfl
  distinct := by decide

theorem everywhere_person {P : TableCodec → Prop} (outer : P personCodec) (inner : P addressCodec) :
    personCodec.Everywhere P := by
  refine .intro outer ?_
  intro s hs
  simp only [personCodec, List.mem_cons, List.not_mem_nil, or_false] at hs
  rcases hs with rfl | rfl | rfl
  · refine .group inner ?_
    intro s hs
    rw [List.mem_singleton.mp hs]
    exact .fixed _ _
  · exact .fixed _ _
  · exact .list .string

theorem holds_place : (Operator.group addressCodec).Holds (fun _ => True) (.group place) := by
  refine .group (r := place) (m := [(1, .scalar (.int32 75011))]) trivial rfl ?_ ?_
  · intro i v found
    rw [List.mem_singleton.mp (IdMap.mem_of_find? found) |> Prod.mk.inj |>.2]
    exact .scalar _
  · apply (TableCodec.holdsAll_iff (c := addressCodec) (by decide)).mpr
    intro e he
    rw [List.mem_singleton.mp he]
    exact .fixed _ _ _

theorem holdsAll_values : personCodec.HoldsAll (fun _ => True) values := by
  apply (TableCodec.holdsAll_iff (by decide)).mpr
  intro e he
  change e ∈ [_, _, _] at he
  simp only [List.mem_cons, List.not_mem_nil, or_false] at he
  rcases he with rfl | rfl | rfl
  · exact holds_place
  · exact .fixed _ _ _
  · exact .list fun v hv => List.mem_singleton.mp hv ▸ .string _

theorem payload_place :
    ∃ p, (Operator.group addressCodec).payload (.group place) = .ok p ∧ p.size = 18 := by
  obtain ⟨p, laid, size⟩ := addressCodec.exists_layout
    (addressCodec.filled [(1, .scalar (.int32 75011))])
    (.cons ⟨Operator.payload_fixed_eq_ok_iff.mpr ⟨_, rfl, rfl, rfl⟩, nofun⟩ .nil)
    (by decide) (by decide)
  refine ⟨p, Operator.payload_group_eq_ok_iff.mpr ⟨place, rfl, rfl, ?_⟩, size⟩
  exact Record.toBytes_eq_ok_iff.mpr (.inr ⟨rfl, _, rfl, laid⟩)

theorem encode_values : ∃ bytes, personCodec.encode values = .ok bytes := by
  obtain ⟨p, payload, size⟩ := payload_place
  have names : (Operator.list .string 10).payload (.list [.scalar (.string "Ann")]) =
      .ok (Operator.listOctets .string [Operator.string.framed (Text.utf8 "Ann")]) := by
    refine Operator.payload_list_eq_ok_iff.mpr ⟨_, _, rfl, by decide, .cons ?_ .nil, rfl⟩
    refine Operator.block_eq_ok_iff.mpr ⟨_, ?_, fun _ => by decide, rfl⟩
    exact Operator.payload_string_eq_ok_iff.mpr ⟨_, rfl, by decide, rfl⟩
  have length : lengthFor (personCodec.filled values) [p, BigEndian.encode 4 7,
      Operator.listOctets .string [Operator.string.framed (Text.utf8 "Ann")]] = 69 := by
    show 8 + (10 + (6 + (10 + 0))) + (p.size + _) = 69
    rw [size]
    rfl
  obtain ⟨bytes, laid, -⟩ := personCodec.exists_layout (personCodec.filled values)
    (.cons ⟨payload, fun _ => by rw [size]; decide⟩
      (.cons ⟨Operator.payload_fixed_eq_ok_iff.mpr ⟨_, rfl, rfl, rfl⟩, nofun⟩
        (.cons ⟨names, fun _ => by decide⟩ .nil)))
    (length ▸ by decide) (length ▸ by decide)
  have contents : personCodec.contents values = .ok (personCodec.filled values) := rfl
  exact ⟨bytes, TableCodec.encode_eq_ok_iff.mpr
    ⟨(TableCodec.contents_eq_ok_iff.mp contents).1, laid⟩⟩

theorem sorted_values : IdMap.Sorted values := by decide

/-- The round trip of a person. -/
theorem round_trip_values : ∃ bytes b n, personCodec.encode values = .ok bytes ∧
    RecordBuffer.ofBytes bytes limits.maxRecordSize = .ok b ∧ personCodec.decodeAll b = .ok n ∧
      EqualMaps values n ∧ personCodec.encode n = .ok bytes := by
  obtain ⟨bytes, encoded⟩ := encode_values
  obtain ⟨b, n, accepted, decoded, equal, again⟩ := TableCodec.encode_round_trip
    (givesCodec_person trivial) (everywhere_person numbered_person numbered_address) sorted_values
    holdsAll_values encoded
  exact ⟨bytes, b, n, encoded, accepted, decoded, equal, again⟩

end Household

end RecordFormat
