import RecordFormat.Proofs.Evolution.Forward
import RecordFormat.Proofs.Registry.Unshared

/-!
# What a shared registry gives

A registry keeps what it compiles under the name and version of a table, or under a type and the
version of the table that it refers to, while what it keeps has the tables inside as well. So the
first request under a key decides for all later ones. A registry is transparent when that does not
show: it then fails where a fresh one does and gives a twin of what that gives.

It is not enough that tables of one name and version are the same, for sameness takes groups by
name, and the versions inside may differ (`Household.not_transparent_of_same`). What is enough is
that they also refer to the same versions of tables, and of tables that can be compiled this is
necessary (`Registry.transparency`).
-/

namespace RecordFormat

open Outcome
open Steps (Follows)

section

variable {limits : Limits} {T : Table → Prop}

/-! ## Asking a registry -/

namespace Registry

/-- Whatever is kept can be compiled from tables in `T`. -/
structure Compilable (limits : Limits) (T : Table → Prop) (r : Registry) : Prop where
  limits_eq : r.limits = limits
  operators : ∀ e ∈ r.operators, ∃ t : FieldType, t.Within T ∧ t.operatorKey = e.1 ∧
    ∃ op, t.compile limits = .ok op
  codecs : ∀ e ∈ r.codecs, ∃ t : Table, T t ∧ t.codecKey = e.1 ∧ ∃ c, t.compile limits = .ok c

variable {r : Registry}

theorem compilable_fresh : Compilable limits T { limits } := ⟨rfl, nofun, nofun⟩

/-- A type with a kept operator can be compiled. -/
theorem Compilable.exists_operator (nested : NestedIn T) (matching : MatchingIn T)
    (compilable : Compilable limits T r) {t : FieldType} (within : t.Within T)
    {e : OperatorKey × Operator}
    (kept : r.operators.find? (fun e => e.1.same t.operatorKey) = some e) :
    ∃ op, t.compile limits = .ok op := by
  obtain ⟨u, within', key, op, compiled⟩ := compilable.operators e (List.mem_of_find?_eq_some kept)
  have same := List.find?_some kept
  have alike : Alike _ (u.compile limits) (t.compile limits) :=
    u.compile_alike nested matching within' within (key.trans (key_eq_of_same key rfl same))
  obtain ⟨made, eq, -⟩ := (compiled ▸ alike).ok_left
  exact ⟨made, eq⟩

/-- A table with a kept codec can be compiled. -/
theorem Compilable.exists_codec (nested : NestedIn T) (matching : MatchingIn T)
    (compilable : Compilable limits T r) {t : Table} (asked : T t)
    {e : (String × Int16) × TableCodec}
    (kept : r.codecs.find? (fun e => e.1 = t.codecKey) = some e) :
    ∃ c, t.compile limits = .ok c := by
  obtain ⟨u, asked', key, c, compiled⟩ := compilable.codecs e (List.mem_of_find?_eq_some kept)
  have same := List.find?_some kept
  rw [decide_eq_true_eq] at same
  have alike : Alike _ (u.compile limits) (t.compile limits) :=
    u.compile_alike nested matching asked' asked (key.trans same)
  obtain ⟨made, eq, -⟩ := (compiled ▸ alike).ok_left
  exact ⟨made, eq⟩

theorem keepOperator_follows (compilable : Compilable limits T r) {t : FieldType}
    (within : t.Within T) {op op' : Operator} (compiled : t.compile limits = .ok op') :
    Follows (Compilable limits T) (keepOperator t.operatorKey op)
      (.ok op' : Except CodecError Operator) r := by
  refine Follows.look (a := (r.operators.find? _).map Prod.snd) rfl ?_
  cases (r.operators.find? fun e => e.1.same t.operatorKey).map Prod.snd with
  | some kept => exact Follows.pure compilable
  | none =>
      refine ⟨⟨compilable.limits_eq, fun e he => ?_, compilable.codecs⟩, .ok trivial⟩
      rcases List.mem_append.mp he with he | he
      · exact compilable.operators e he
      · rw [List.mem_singleton.mp he]
        exact ⟨t, within, rfl, op', compiled⟩

theorem keepCodec_follows (compilable : Compilable limits T r) {t : Table} (asked : T t)
    {c c' : TableCodec} (compiled : t.compile limits = .ok c') :
    Follows (Compilable limits T) (keepCodec t.codecKey c)
      (.ok c' : Except CodecError TableCodec) r := by
  refine Follows.look (a := (r.codecs.find? _).map Prod.snd) rfl ?_
  cases (r.codecs.find? fun e => e.1 = t.codecKey).map Prod.snd with
  | some kept => exact Follows.pure compilable
  | none =>
      refine ⟨⟨compilable.limits_eq, compilable.operators, fun e he => ?_⟩, .ok trivial⟩
      rcases List.mem_append.mp he with he | he
      · exact compilable.codecs e he
      · rw [List.mem_singleton.mp he]
        exact ⟨t, asked, rfl, c', compiled⟩

end Registry

section

open Registry

mutual

/-- Asking for an operator fails when and as compiling its type does. -/
theorem FieldType.operator_follows (nested : NestedIn T) (matching : MatchingIn T)
    (t : FieldType) (within : t.Within T) {r : Registry} (compilable : Compilable limits T r) :
    Follows (Compilable limits T) t.operator (t.compile limits) r := by
  rw [FieldType.operator]
  refine Follows.look (a := (r.operators.find? _).map Prod.snd) rfl ?_
  cases kept : r.operators.find? fun e => e.1.same t.operatorKey with
  -- What is kept may come from another type under this key, and that one compiles.
  | some e =>
      obtain ⟨op, compiled⟩ := compilable.exists_operator nested matching within kept
      rw [compiled]
      exact Follows.pure compilable
  | none =>
      match t, within with
      | .primitive p, within =>
          refine Follows.look (a := r) rfl ?_
          rw [compilable.limits_eq]
          have made : (FieldType.primitive p).compile limits =
              Operator.ofPrimitive limits.floatMagnitude p := by rw [FieldType.compile]
          rw [made]
          exact (Follows.liftExcept compilable).finish fun _ op s compilable compiled =>
            keepOperator_follows compilable within (made.trans compiled)
      | .unbound group, _ =>
          rw [FieldType.compile]
          exact (Follows.throw compilable).finish nofun
      | .bound table, within =>
          rw [FieldType.compile]
          refine (Table.codec_follows nested matching table within compilable).bind
            fun c c' s compilable compiled => ?_
          refine keepOperator_follows compilable within ?_
          rw [FieldType.compile, compiled]
          rfl
      | .list element, within =>
          rw [FieldType.compile]
          refine (FieldType.operator_follows nested matching element within compilable).bind
            fun op op' s compilable compiled => ?_
          refine Follows.look (a := s) rfl ?_
          refine keepOperator_follows compilable within ?_
          rw [FieldType.compile, compiled]
          rfl
termination_by (sizeOf t, 0)

/-- Asking for a codec fails when and as compiling its table does. -/
theorem Table.codec_follows (nested : NestedIn T) (matching : MatchingIn T) (t : Table)
    (asked : T t) {r : Registry} (compilable : Compilable limits T r) :
    Follows (Compilable limits T) t.codec (t.compile limits) r := by
  rw [Table.codec_eq]
  refine Follows.look (a := (r.codecs.find? _).map Prod.snd) rfl ?_
  cases kept : r.codecs.find? fun e => e.1 = t.codecKey with
  | some e =>
      obtain ⟨c, compiled⟩ := compilable.exists_codec nested matching asked kept
      rw [compiled]
      exact Follows.pure compilable
  | none =>
      rw [Table.compile_eq]
      refine Follows.bind (Follows.mapM compilable ?_) fun slots slots' s compilable made => ?_
      · intro f hf s compilable
        have known := Table.mem_layoutFields.mp hf
        have smaller := Table.sizeOf_type_lt hf
        exact (FieldType.operator_follows nested matching f.type (nested t asked f known.1)
          compilable).bind fun op op' s compilable _ => Follows.pure compilable
      · refine Follows.look (a := s) rfl ?_
        refine keepCodec_follows compilable asked ?_
        rw [Table.compile_eq, made]
        rfl
termination_by (sizeOf t, 1)

end

end

/-- What any sequence of requests leaves behind can be compiled. -/
theorem Registry.Reachable.compilable (nested : NestedIn T) (matching : MatchingIn T)
    {r : Registry} (h : Reachable limits T r) : Compilable limits T r := by
  induction h with
  | fresh => exact compilable_fresh
  | codec t _ asked ih => exact (t.codec_follows nested matching asked ih).keeps
  | operator t _ within ih => exact (t.operator_follows nested matching within ih).keeps

namespace Registry

variable {r : Registry}

/-- A registry fails where compiling a table does, and gives what is under the same key. -/
theorem Reachable.codec_given (nested : NestedIn T) (matching : MatchingIn T)
    (h : Reachable limits T r) (t : Table) (asked : T t) :
    Alike (fun c d => c.CompiledAs limits T t.codecKey ∧ d.OwnedBy limits T t)
      (t.codec.run r).1 (t.compile limits) := by
  have follows := t.codec_follows nested matching asked (h.compilable nested matching)
  have ends := t.codec_ends nested asked (h.sound nested)
  exact follows.alike.imp fun c d given compiled _ =>
    ⟨ends.returns c given, t.ownedBy_of_compile nested asked compiled⟩

/-- A registry fails where compiling a type does, and gives what is under the same key. -/
theorem Reachable.operator_given (nested : NestedIn T) (matching : MatchingIn T)
    (h : Reachable limits T r) (t : FieldType) (within : t.Within T) :
    Alike (fun op op' => op.CompiledAs limits T t.operatorKey ∧ op'.OwnedBy limits T t)
      (t.operator.run r).1 (t.compile limits) := by
  have follows := t.operator_follows nested matching within (h.compilable nested matching)
  have ends := t.operator_ends nested within (h.sound nested)
  exact follows.alike.imp fun op op' given compiled _ =>
    ⟨ends.returns op given, t.ownedBy_of_compile nested within compiled⟩

/-- What a registry that has been asked for other things does as a fresh one. Either fails where
the other does, and otherwise gives what cannot be told apart from what the other gives. Both are
twins of what is compiled without a registry, with the tables that the request itself refers to at
every depth. -/
structure Transparent (limits : Limits) (T : Table → Prop) (r : Registry) : Prop where
  codec : ∀ t, T t →
    Alike TableCodec.Interchangeable (t.codec.run r).1 (t.codec.run { limits }).1 ∧
    Alike (fun c d => c.Interchangeable d ∧ d.table = t ∧ d.Everywhere TableCodec.Own)
      (t.codec.run r).1 (t.compile limits)
  operator : ∀ t : FieldType, t.Within T →
    Alike Operator.Interchangeable (t.operator.run r).1 (t.operator.run { limits }).1 ∧
    Alike (fun op op' => op.Interchangeable op' ∧ op'.type = t ∧ op'.Everywhere TableCodec.Own)
      (t.operator.run r).1 (t.compile limits)

theorem Reachable.transparent (nested : NestedIn T) (matching : MatchingIn T)
    (h : Reachable limits T r) : Transparent limits T r := by
  have start : Reachable limits T { limits } := .fresh
  constructor
  · intro t asked
    have given := h.codec_given nested matching t asked
    have fresh := start.codec_given nested matching t asked
    constructor
    · exact given.of_common fresh fun c c' d hc hc' => hc.1.interchangeable matching hc'.1
    · exact given.imp fun c d _ _ ⟨hc, hd⟩ =>
        ⟨hc.interchangeable matching hd.compiledAs, hd.table, hd.own⟩
  · intro t within
    have given := h.operator_given nested matching t within
    have fresh := start.operator_given nested matching t within
    constructor
    · exact given.of_common fresh fun op op' d hop hop' =>
        hop.1.interchangeable matching hop'.1
    · exact given.imp fun op d _ _ ⟨hop, hd⟩ =>
        ⟨hop.interchangeable matching hd.compiledAs, hd.type, hd.own⟩

/-! ## The first codec stays -/

theorem keepCodec_kept {key : String × Int16} {c c' : TableCodec} {r' : Registry}
    (given : (keepCodec key c).run r = (.ok c', r')) :
    (codec? key).run r' = (.ok (some c'), r') := by
  obtain ⟨o, s, looks, given⟩ := Steps.run_bind_eq_ok_iff.mp given
  obtain rfl : r = s := congrArg Prod.snd looks
  cases o with
  | some kept =>
      cases given
      exact looks
  | none =>
      cases given
      have none : (r.codecs.find? fun e => e.1 = key).map Prod.snd = none :=
        Except.ok.inj (congrArg Prod.fst looks)
      have last : (r.codecs ++ [(key, c)]).find? (fun e => e.1 = key) = some (key, c) := by
        rw [List.find?_append, Option.map_eq_none_iff.mp none]
        simp
      exact congrArg (fun e => (Except.ok (e.map Prod.snd), _)) last

/-- A codec that is given out is kept under the key of its table. -/
theorem codec_kept {t : Table} {c : TableCodec} {r' : Registry}
    (given : t.codec.run r = (.ok c, r')) :
    (codec? t.codecKey).run r' = (.ok (some c), r') := by
  rw [Table.codec_eq] at given
  obtain ⟨o, s, looks, given⟩ := Steps.run_bind_eq_ok_iff.mp given
  obtain rfl : r = s := congrArg Prod.snd looks
  cases o with
  | some kept =>
      cases given
      exact looks
  | none =>
      -- Compiling the fields may have kept a codec under this key, so the last step looks again.
      obtain ⟨slots, s, -, given⟩ := Steps.run_bind_eq_ok_iff.mp given
      obtain ⟨_, _, -, given⟩ := Steps.run_bind_eq_ok_iff.mp given
      exact keepCodec_kept given

/-- A codec that is kept is given out for every table under the key. -/
theorem codec_of_kept {t : Table} {c : TableCodec}
    (kept : (codec? t.codecKey).run r = (.ok (some c), r)) : t.codec.run r = (.ok c, r) := by
  rw [Table.codec_eq, Steps.run_bind, kept]
  rfl

/-- Two tables of one name and version share a codec, so both have to match its table. -/
theorem references_of_transparent (all : ∀ r, Reachable limits T r → Transparent limits T r)
    {t u : Table} (asked : T t) (asked' : T u) (key : t.codecKey = u.codecKey) {d : TableCodec}
    (compiled : t.compile limits = .ok d) : t.references = u.references := by
  have first := ((all _ .fresh).codec t asked).2
  rw [compiled] at first
  obtain ⟨c, given, same, table, -⟩ := first.ok_right
  have run : t.codec.run { limits } = (.ok c, (t.codec.run { limits }).2) := Prod.ext given rfl
  have shared := codec_of_kept (key ▸ codec_kept run)
  have second := ((all _ (.codec t .fresh asked)).codec u asked').2
  rw [shared] at second
  obtain ⟨d', -, same', table', -⟩ := second.ok_left
  calc t.references
    _ = d.table.references := by rw [table]
    _ = c.table.references := same.twin.table.references.symm
    _ = d'.table.references := same'.twin.table.references
    _ = u.references := by rw [table']

/-- **When a registry is transparent.** Let tables of one name and version be the same. Where they
also refer to the same versions of tables, a registry is transparent after any requests. That is
also necessary, of tables that can be compiled at all. -/
theorem transparency (nested : NestedIn T) (same : SameIn T) :
    (VersionedIn T → ∀ r, Reachable limits T r → Transparent limits T r) ∧
    ((∀ r, Reachable limits T r → Transparent limits T r) →
      ∀ t u, T t → T u → t.codecKey = u.codecKey → (∃ c, t.compile limits = .ok c) →
        t.references = u.references) :=
  ⟨fun versioned _ h => h.transparent nested (same.matching versioned),
    fun all _ _ asked asked' key ⟨_, compiled⟩ =>
      references_of_transparent all asked asked' key compiled⟩

end Registry

end

namespace Household

theorem nestedIn_versions : NestedIn (· ∈ schema.tables ++ nextSchema.tables) := by
  show ∀ t ∈ schema.tables ++ nextSchema.tables, ∀ f ∈ t.fields, f.type.Within _
  simp [schema, nextSchema, address, person, nextAddress, nextPerson, zip, city, home, nextHome,
    work, age, names, nicknames, FieldType.Within]

theorem eq_of_key_versions : ∀ t ∈ schema.tables ++ nextSchema.tables,
    ∀ u ∈ schema.tables ++ nextSchema.tables, t.codecKey = u.codecKey → t = u := by
  simp [schema, nextSchema, address, person, nextAddress, nextPerson, Table.codecKey]

/-- A registry that has given the person gives the next person. -/
theorem transparent_versions :
    Registry.Reachable limits (· ∈ schema.tables ++ nextSchema.tables)
      (person.codec.run { limits }).2 ∧
    ∃ c, (nextPerson.codec.run (person.codec.run { limits }).2).1 = .ok c ∧
      c.Interchangeable nextPersonCodec := by
  have reachable : Registry.Reachable limits (· ∈ schema.tables ++ nextSchema.tables)
      (person.codec.run { limits }).2 := .codec person .fresh (by simp [schema])
  have same : SameIn (· ∈ schema.tables ++ nextSchema.tables) :=
    fun t u ht hu key => .inl (eq_of_key_versions t ht u hu key)
  have versioned : VersionedIn (· ∈ schema.tables ++ nextSchema.tables) :=
    fun t u ht hu key => congrArg Table.references (eq_of_key_versions t ht u hu key)
  have transparent := (Registry.transparency nestedIn_versions same).1 versioned _ reachable
  have alike := (transparent.codec nextPerson (by simp [nextSchema])).1
  have fresh : (nextPerson.codec.run { limits }).1 = .ok nextPersonCodec := by cbv
  exact ⟨reachable, (fresh ▸ alike).ok_right⟩

/-- A person that is the same, groups taken by name, with a home of the next version. -/
def movedPerson : Table := ⟨"Person", 1, [nextHome, age, names]⟩

def movedPersonCodec : TableCodec :=
  ⟨movedPerson, limits, [⟨nextHome, .group nextAddressCodec⟩, ⟨age, .fixed .int32 ⟨0⟩⟩,
    ⟨names, .list .string 10⟩]⟩

def homes : List Table := [address, nextAddress, person, movedPerson]

/-- The octets of a person whose home has a city. -/
def movedOctets : RecordBuffer where
  bytes := [0, 0, 0, 58, 0, 1, 0, 2, 0, 1, 0, 0, 0, 24, 0, 2, 0, 0, 0, 20, 0, 0, 0, 7,
    0, 0, 0, 30, 0, 0, 0, 30, 0, 2, 0, 2, 0, 1, 0, 0, 0, 20, 0, 2, 0, 0, 0, 24,
    0, 1, 37, 3, 0, 4, 76, 121, 111, 110].toByteArray
  consistent := by decide +kernel

/-- The numbers that the home holds, where a codec reads it. -/
def homeIds (c : TableCodec) : Option (List Int16) := do
  let m ← (c.decodeAll movedOctets).toOption
  match m.find? 1 with
  | some (.group r) => return (← r.values.toOption).ids
  | _ => none

theorem nestedIn_homes : NestedIn (· ∈ homes) := by
  show ∀ t ∈ homes, ∀ f ∈ t.fields, f.type.Within _
  simp [homes, address, nextAddress, person, movedPerson, zip, city, home, nextHome, age, names,
    FieldType.Within]

theorem same_homes : ∀ t ∈ homes, ∀ u ∈ homes, t.codecKey = u.codecKey → t.same u = true := by
  decide

theorem references_movedPerson : person.references ≠ movedPerson.references := by
  intro same
  have versions := congrArg (List.map OperatorKey.version) same
  exact absurd versions (by decide)

/-- A registry that has given the person gives its codec to the moved person, and the city is not
read. -/
theorem not_transparent_of_same :
    NestedIn (· ∈ homes) ∧
    (∀ t ∈ homes, ∀ u ∈ homes, t.codecKey = u.codecKey → t.same u = true) ∧
    Registry.Reachable limits (· ∈ homes) (person.codec.run { limits }).2 ∧
    movedPerson ∈ homes ∧
    (movedPerson.codec.run (person.codec.run { limits }).2).1 = .ok personCodec ∧
    (movedPerson.codec.run { limits }).1 = .ok movedPersonCodec ∧
    homeIds personCodec = some [1] ∧ homeIds movedPersonCodec = some [1, 2] ∧
    ¬Registry.Transparent limits (· ∈ homes) (person.codec.run { limits }).2 := by
  have given : (movedPerson.codec.run (person.codec.run { limits }).2).1 = .ok personCodec := by
    cbv
  have fresh : (movedPerson.codec.run { limits }).1 = .ok movedPersonCodec := by cbv
  have shared : homeIds personCodec = some [1] := by decide +kernel
  have own : homeIds movedPersonCodec = some [1, 2] := by decide +kernel
  have member : movedPerson ∈ homes := by simp [homes]
  refine ⟨nestedIn_homes, same_homes, .codec person .fresh (by simp [homes]), member, given, fresh,
    shared, own, ?_⟩
  intro transparent
  have alike := (transparent.codec movedPerson member).1
  rw [given, fresh] at alike
  cases alike with
  | ok same => exact references_movedPerson same.twin.table.references

end Household

end RecordFormat
