import RecordFormat.Proofs.Schema.Binding

/-!
# What is declared is built

A build makes a schema exactly when the definition declares it (`Definition.build_eq_ok_iff`). While
a table is being built, only smaller tables are asked for, and everything that is being built
already is larger; so the build of a declared schema meets no cycle.
-/

namespace RecordFormat

open Outcome
open Steps (Succeeds)

namespace FieldType

@[simp] theorem isList_detach : ∀ t : FieldType, t.detach.isList = t.isList
  | .primitive _ | .unbound _ | .bound _ | .list _ => rfl

@[simp] theorem isSentinel_detach : ∀ t : FieldType, t.detach.isSentinel = t.isSentinel
  | .primitive _ | .unbound _ | .bound _ | .list _ => rfl

/-- Elements of a list are neither lists nor sentinels. -/
def Formed : FieldType → Prop
  | .list element => element.isList = false ∧ element.isSentinel = false
  | _ => True

theorem formed_of_isList : ∀ {t : FieldType}, t.isList = false → t.Formed
  | .primitive _, _ | .unbound _, _ | .bound _, _ => trivial

theorem formed_of_parse (cs : List Char) {t : FieldType} (h : parse cs = .ok t) : t.Formed := by
  cases found : listElement? (Text.trimBlanks cs) with
  | some inner =>
      rw [parse_of_some found] at h
      obtain ⟨element, -, made⟩ := bind_eq_ok_iff.mp h
      obtain ⟨rfl, allowed⟩ := eq_of_listOf made
      exact allowed
  | none =>
      rw [parse_of_none found] at h
      split at h
      · cases h
        trivial
      · split at h
        · cases h
          trivial
        · cases h

theorem listOf_eq_ok {element : FieldType} (formed : (list element).detach.Formed) :
    element.listOf = .ok (.list element) := by
  rw [detach, Formed, isList_detach, isSentinel_detach] at formed
  rw [listOf, formed.1, formed.2]
  rfl

end FieldType

/-- What is finished belongs to the schema that is being built. -/
structure Workshop.Heeds (s : Schema) (w : Workshop) : Prop where
  plain : w.interner.Plain
  finished : ∀ t ∈ w.finished, t ∈ s.tables

namespace Definition

open Workshop

variable {mode : BuildMode} {d : Definition} {i : Interner} {s : Schema}

theorem Declares.names (h : d.Declares mode s) :
    d.tables.map TableDefinition.name = s.tables.map Table.name :=
  map_eq_map_of_forall₂ (h.tables.imp fun _ _ declares => declares.name.symm)

/-- Where tables have the same names, the same names are found. -/
theorem isSome_table?_of_names
    (names : d.tables.map TableDefinition.name = s.tables.map Table.name) (name : String) :
    (d.table? name).isSome = (s.table? name).isSome := by
  have known : (∃ u ∈ d.tables, u.name = name) ↔ ∃ t ∈ s.tables, t.name = name := by
    rw [← List.mem_map, names, List.mem_map]
  rw [Bool.eq_iff_iff, table?, Schema.table?, List.find?_isSome, List.find?_isSome]
  simpa using known

theorem Declares.isSome_table? (h : d.Declares mode s) (name : String) :
    (d.table? name).isSome = (s.table? name).isSome :=
  isSome_table?_of_names h.names name

/-- A table definition declares the table of its name. -/
theorem Declares.declaresTable (h : d.Declares mode s) {u : TableDefinition} {t : Table}
    (hu : u ∈ d.tables) (ht : t ∈ s.tables) (name : t.name = u.name) : u.Declares mode d t := by
  obtain ⟨t', ht', declares⟩ := exists_right_of_mem h.tables hu
  obtain rfl := h.sound.eq_of_name ht ht' (name.trans declares.name.symm)
  exact declares

theorem interning_succeeds {text : String} {type : FieldType} {w : Workshop}
    (denotes : FieldType.parse text.toList = .ok type) (here : w.Heeds s) :
    Succeeds (Heeds s) (·.type = type) (BuildM.interning (FieldType.ofText text)) w := by
  have alike := FieldType.ofText_alike text here.plain
  have ends := FieldType.ofText_ends text here.plain
  rw [denotes] at alike
  obtain ⟨parsed, read, same⟩ := alike.ok_right
  let interner := ((FieldType.ofText text).run w.interner).2
  exact ⟨parsed, { w with interner }, Prod.ext read rfl, ⟨ends.keeps, here.finished⟩, same⟩

mutual

/-- **A declared table is built**, when no table as small as it is being built already. -/
theorem buildTable_succeeds (h : d.Declares mode s) (idle : List TableDefinition)
    (u : TableDefinition) (t : Table) (ht : t ∈ s.tables) (declares : u.Declares mode d t)
    (waiting : ∀ v ∈ s.tables, sizeOf v ≤ sizeOf t → Idle idle v.name) {w : Workshop}
    (here : w.Heeds s) : Succeeds (Heeds s) (· = t) (buildTable mode d idle u) w := by
  have looks : (BuildM.finished? u.name).run w = (.ok (w.finished.find? (·.name = u.name)), w) := rfl
  rw [buildTable]
  refine Succeeds.look looks ?_
  cases found : w.finished.find? (·.name = u.name) with
  | some table =>
      have mem := here.finished table (List.mem_of_find?_eq_some found)
      have name : table.name = u.name := by simpa using List.find?_some found
      exact Succeeds.pure here (h.sound.eq_of_name mem ht (name.trans declares.name.symm))
  | none =>
      have self : idle.any (fun v => v.name = u.name) = true := by
        obtain ⟨v, hv, name⟩ := waiting t ht (Nat.le_refl _)
        exact List.any_eq_true.mpr ⟨v, hv, decide_eq_true (name.trans declares.name)⟩
      dsimp only
      rw [dif_pos self]
      refine (Succeeds.mapM (T := (· = ·)) t.fields here ?_).bind ?_
      · apply forall₂_imp_of_mem declares.fields
        intro f _ g hg declared w here
        refine (interning_succeeds declared.denotes here).bind ?_
        rintro parsed w here same
        rw [same]
        have smaller := Table.sizeOf_fieldType_lt hg
        refine (bindGroups_succeeds h _ u f g.type declared.resolved (h.nested t ht g hg)
          (FieldType.formed_of_parse _ declared.denotes) ?_ here).bind ?_
        · -- The table itself is larger than what its fields ask for.
          intro v hv small
          obtain ⟨o, ho, name⟩ := waiting v hv (Nat.le_of_lt (Nat.lt_trans small smaller))
          refine ⟨o, List.mem_filter.mpr ⟨ho, decide_eq_true ?_⟩, name⟩
          intro own
          obtain rfl := h.sound.eq_of_name hv ht (name.symm.trans (own.trans declares.name.symm))
          exact Nat.lt_asymm small smaller
        · rintro _ w here rfl
          exact Succeeds.liftExcept here declared.complete rfl
      · intro fields w here same
        rw [List.forall₂_eq_eq_eq] at same
        rw [same]
        refine Succeeds.bind (Q := (· = t)) (Succeeds.liftExcept here declares.created rfl) ?_
        rintro table w here rfl
        let w' := { w with finished := table :: w.finished }
        have belongs : w'.Heeds s := ⟨here.plain, List.forall_mem_cons.mpr ⟨ht, here.finished⟩⟩
        exact ⟨table, w', rfl, belongs, rfl⟩
termination_by (sizeOf t, 0)

theorem bindGroups_succeeds (h : d.Declares mode s) (idle : List TableDefinition)
    (u : TableDefinition) (f : FieldDefinition) (type : FieldType) (resolved : type.Resolved mode d)
    (within : type.Within (· ∈ s.tables)) (formed : type.detach.Formed)
    (waiting : ∀ v ∈ s.tables, sizeOf v < sizeOf type → Idle idle v.name) {w : Workshop}
    (here : w.Heeds s) :
    Succeeds (Heeds s) (· = type) (bindGroups mode d idle u f type.detach) w := by
  match type with
  | .primitive p =>
      unfold FieldType.detach bindGroups
      exact Succeeds.pure here rfl
  | .unbound group =>
      obtain ⟨rfl, absent⟩ := resolved
      unfold FieldType.detach bindGroups
      rw [absent]
      exact Succeeds.pure here rfl
  | .bound table =>
      obtain ⟨target, found⟩ := Option.isSome_iff_exists.mp resolved
      have mem : target ∈ d.tables := List.mem_of_find?_eq_some found
      have name : target.name = table.name := by simpa using List.find?_some found
      unfold FieldType.detach bindGroups
      rw [found]
      refine (buildTable_succeeds h idle target table within
        (h.declaresTable mem within name.symm) ?_ here).bind ?_
      · intro v hv small
        exact waiting v hv (by simp; omega)
      · rintro _ w here rfl
        exact Succeeds.pure here rfl
  | .list element =>
      have elementFormed : element.detach.Formed := FieldType.formed_of_isList formed.1
      unfold FieldType.detach bindGroups
      refine (bindGroups_succeeds h idle u f element resolved within elementFormed ?_ here).bind ?_
      · intro v hv small
        exact waiting v hv (by simp; omega)
      · rintro _ w here rfl
        exact Succeeds.liftExcept here (FieldType.listOf_eq_ok formed) rfl
termination_by (sizeOf type, 0)

end

/-- **What is declared is built**, whatever was interned before. -/
theorem build_of_declares (h : d.Declares mode s) (plain : i.Plain) :
    ((d.build mode).run i).1 = .ok s := by
  have begin : Heeds s ⟨i, []⟩ := ⟨plain, nofun⟩
  have checked : Schema.checkTables d.name [] (d.tables.map TableDefinition.name) = .ok () := by
    obtain ⟨_, checked, -⟩ := bind_eq_ok_iff.mp h.created
    rw [h.names]
    exact checked
  have waiting : ∀ v ∈ s.tables, Idle d.tables v.name := by
    intro v hv
    obtain ⟨o, ho, declares⟩ := exists_left_of_mem h.tables hv
    exact ⟨o, ho, declares.name.symm⟩
  have steps : Succeeds (Heeds s) (· = s) (d.work mode) ⟨i, []⟩ := by
    refine Succeeds.bind (Q := fun _ => True) (Succeeds.liftExcept begin checked trivial) ?_
    intro _ w here _
    refine (Succeeds.mapM (T := (· = ·)) s.tables here ?_).bind ?_
    · apply forall₂_imp_of_mem h.tables
      intro u hu t ht declares w here
      exact buildTable_succeeds h d.tables u t ht declares (fun v hv _ => waiting v hv) here
    · intro tables w here same
      rw [List.forall₂_eq_eq_eq] at same
      rw [same]
      exact Succeeds.liftExcept here h.created rfl
  obtain ⟨_, w, run, -, rfl⟩ := steps
  rw [build_eq_work, run]

/-- **A build makes a schema exactly when the definition declares it.** -/
theorem build_eq_ok_iff (plain : i.Plain) :
    ((d.build mode).run i).1 = .ok s ↔ d.Declares mode s :=
  ⟨declares_of_build plain, fun h => build_of_declares h plain⟩

end Definition

end RecordFormat
