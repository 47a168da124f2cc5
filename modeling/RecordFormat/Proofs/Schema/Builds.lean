import Mathlib
import RecordFormat.Proofs.Evolution.Forward

/-!
# Two builds side by side

Two builds of one definition finish the same tables one after the other, whatever their interners
hold, and end alike. Only a strict build may end before a lenient one does, at a group that names
no table (`Definition.build_agrees`). So no build depends on what its interner was used for before
(`Interner.forgetful`).
-/

namespace RecordFormat

open Outcome
open Steps (Agrees)

/-! ## One step after the other -/

/-- Two workshops have finished the same tables. -/
structure Workshop.Abreast (w w' : Workshop) : Prop where
  left : w.interner.Plain
  right : w'.interner.Plain
  finished : w.finished = w'.finished

namespace Definition

open Workshop

/-- A strict build gives up where a lenient one leaves a group unbound. -/
def GivesUp (mode mode' : BuildMode) (e : ModelError) : Prop :=
  mode ≠ mode' ∧ ∃ table field group, e = .unresolvedGroup table field group

variable {mode mode' : BuildMode} {d : Definition} {w w' : Workshop} {i i' : Interner}

theorem interning_agrees (text : String) (here : w.Abreast w') :
    Agrees Abreast (fun a b => a.type = b.type) (GivesUp mode mode')
      (BuildM.interning (FieldType.ofText text)) w (BuildM.interning (FieldType.ofText text)) w' := by
  refine .alike ?_ (FieldType.ofText_same text here.left here.right)
  exact ⟨(FieldType.ofText_ends text here.left).keeps, (FieldType.ofText_ends text here.right).keeps,
    here.finished⟩

theorem finished?_agrees (name : String) (here : w.Abreast w') :
    Agrees Abreast (· = ·) (GivesUp mode mode') (BuildM.finished? name) w
      (BuildM.finished? name) w' := by
  refine .alike here ?_
  show Alike _ (Except.ok (w.finished.find? _)) (Except.ok (w'.finished.find? _))
  rw [here.finished]
  exact .ok rfl

theorem finish_agrees (table : Table) (here : w.Abreast w') :
    Agrees Abreast (· = ·) (GivesUp mode mode') (BuildM.finish table) w
      (BuildM.finish table) w' :=
  .alike ⟨here.left, here.right, congrArg (table :: ·) here.finished⟩ (.ok rfl)

mutual

/-- **A table is built alike in two workshops.** -/
theorem buildTable_agrees (either : mode = mode' ∨ mode = .strict) (d : Definition)
    (idle : List TableDefinition) (t : TableDefinition) {w w' : Workshop} (here : w.Abreast w') :
    Agrees Abreast (· = ·) (GivesUp mode mode') (buildTable mode d idle t) w
      (buildTable mode' d idle t) w' := by
  rw [buildTable, buildTable]
  refine (finished?_agrees t.name here).bind ?_
  rintro o _ w w' here rfl
  cases o with
  | some table => exact Agrees.pure here rfl
  | none =>
      dsimp only
      split
      · next waiting =>
        have shorter := length_filter_name_lt waiting
        refine (Agrees.mapM (R := (· = ·)) here ?_).bind ?_
        · intro f _ w w' here
          refine (interning_agrees f.type here).bind ?_
          intro a b w w' here same
          rw [same]
          refine (bindGroups_agrees either d _ t f b.type here).bind ?_
          rintro type _ w w' here rfl
          exact Agrees.liftExcept here
        · intro fields fields' w w' here same
          rw [List.forall₂_eq_eq_eq] at same
          subst same
          refine (Agrees.liftExcept here).bind ?_
          rintro table _ w w' here rfl
          refine (finish_agrees table here).bind ?_
          rintro _ _ w w' here -
          exact Agrees.pure here rfl
      · exact Agrees.throw here
termination_by (idle.length, 0)
decreasing_by
  exact Prod.Lex.left _ _ shorter

theorem bindGroups_agrees (either : mode = mode' ∨ mode = .strict) (d : Definition)
    (idle : List TableDefinition) (t : TableDefinition) (f : FieldDefinition) (type : FieldType)
    {w w' : Workshop} (here : w.Abreast w') :
    Agrees Abreast (· = ·) (GivesUp mode mode') (bindGroups mode d idle t f type) w
      (bindGroups mode' d idle t f type) w' := by
  match type with
  | .primitive _ | .bound _ =>
      unfold bindGroups
      exact Agrees.pure here rfl
  | .unbound group =>
      unfold bindGroups
      cases d.table? group with
      | some target =>
          refine (buildTable_agrees either d idle target here).bind ?_
          rintro table _ w w' here rfl
          exact Agrees.pure here rfl
      | none =>
          rcases either with rfl | rfl
          · cases mode with
            | strict => exact Agrees.throw here
            | lenient => exact Agrees.pure here rfl
          · cases mode' with
            | strict => exact Agrees.throw here
            | lenient => exact .gaveUp rfl ⟨nofun, t.name, f.name, group, rfl⟩
  | .list element =>
      unfold bindGroups
      refine (bindGroups_agrees either d idle t f element here).bind ?_
      rintro bound _ w w' here rfl
      exact Agrees.liftExcept here
termination_by (idle.length, sizeOf type)

end

/-- **Two builds end alike**, unless only the strict one of them gives up. -/
theorem build_agrees (either : mode = mode' ∨ mode = .strict) (plain : i.Plain)
    (plain' : i'.Plain) :
    ((d.build mode).run i).1 = ((d.build mode').run i').1 ∨
      ∃ e, ((d.build mode).run i).1 = .error e ∧ GivesUp mode mode' e := by
  have steps : Agrees Abreast (· = ·) (GivesUp mode mode') (d.work mode) ⟨i, []⟩ (d.work mode')
      ⟨i', []⟩ := by
    refine (Agrees.liftExcept ⟨plain, plain', rfl⟩).bind ?_
    rintro _ _ w w' here -
    refine (Agrees.mapM (R := (· = ·)) here fun t _ w w' here =>
      buildTable_agrees either d d.tables t here).bind ?_
    intro tables tables' w w' here same
    rw [List.forall₂_eq_eq_eq] at same
    subst same
    exact Agrees.liftExcept here
  rw [build_eq_work, build_eq_work]
  cases steps with
  | alike _ alike => exact .inl alike.eq
  | gaveUp failed gives => exact .inr ⟨_, failed, gives⟩

/-- A build does not depend on its interner. -/
theorem build_eq (plain : i.Plain) (plain' : i'.Plain) :
    ((d.build mode).run i).1 = ((d.build mode).run i').1 := by
  rcases build_agrees (.inl rfl) plain plain' with same | ⟨_, _, different, _⟩
  · exact same
  · exact absurd rfl different

end Definition

/-! ## Whatever was interned before -/

namespace FieldType

variable {mode : BuildMode} {d : Definition} {T : Table → Prop} {group : String}

/-- A group is unbound exactly when it names no table. -/
theorem eq_none_iff_of_resolved {bound : Option Table} : ∀ (type : FieldType),
    type.Resolved mode d → type.group? = some (group, bound) →
      (bound = none ↔ d.table? group = none)
  | .unbound _, resolved, h => by
      cases h
      exact iff_of_true rfl resolved.2
  | .bound _, resolved, h => by
      cases h
      obtain ⟨target, found⟩ := Option.isSome_iff_exists.mp resolved
      rw [found]
      exact iff_of_false (fun none => nomatch none) fun none => nomatch none
  | .list element, resolved, h => eq_none_iff_of_resolved element resolved h

/-- Where every group must be found, every group carries a table. -/
theorem exists_of_resolved {bound : Option Table} : ∀ (type : FieldType),
    type.Resolved .strict d → type.group? = some (group, bound) → ∃ table, bound = some table
  | .unbound _, resolved, _ => nomatch resolved.1
  | .bound table, _, h => by
      cases h
      exact ⟨table, rfl⟩
  | .list element, resolved, h => exists_of_resolved element resolved h

theorem within_group? {table : Table} : ∀ (type : FieldType),
    type.Within T → type.group? = some (group, some table) → T table ∧ table.name = group
  | .bound _, within, h => by
      cases h
      exact ⟨within, rfl⟩
  | .list element, within, h => within_group? element within h

end FieldType

namespace Interner

/-- What an interner is asked for. -/
inductive Request where
  | intern (type : FieldType)
  | primitive (p : Primitive)
  | group (name : String)
  | list (element : FieldType)
  | read (text : String)
  | build (mode : BuildMode) (d : Definition)

/-- The interner after a request, answered or not. -/
def Request.after (i : Interner) : Request → Interner
  | .intern type => (Interner.intern type i).2
  | .primitive p => (Interner.primitive p i).2
  | .group name => (Interner.group name i).2
  | .list element => ((Interner.list element).run i).2
  | .read text => ((FieldType.ofText text).run i).2
  | .build mode d => ((d.build mode).run i).2

/-- A new interner after requests one after the other. -/
def afterAll (requests : List Request) : Interner := requests.foldl Request.after {}

theorem plain_after {i : Interner} (plain : i.Plain) (request : Request) :
    (request.after i).Plain := by
  cases request with
  | intern type => exact plain_intern type plain
  | primitive p => exact plain_intern (.primitive p) plain
  | group name => exact plain_intern (.unbound name) plain
  | list element =>
      show ((Interner.list element).run i).2.Plain
      unfold Interner.list
      cases element.listOf with
      | ok type => exact plain_intern type plain
      | error e => exact plain
  | read text => exact (FieldType.ofText_ends text plain).keeps
  | build mode d => exact Definition.plain_build plain

theorem plain_afterAll (requests : List Request) : (afterAll requests).Plain :=
  List.foldlRecOn requests Request.after (fun _ none => nomatch none)
    fun _ plain request _ => plain_after plain request

/-- **An interner forgets what it saw.** After any two histories a type text is read alike and a
definition is built alike: the schemas are equal, down to the tables that groups are bound to, and
these are tables of the schema; a group that names no table stays unbound. -/
theorem forgetful (before before' : List Request) :
    (∀ text, ((FieldType.ofText text).run (afterAll before)).1.map Interned.type =
      ((FieldType.ofText text).run (afterAll before')).1.map Interned.type) ∧
    ∀ (mode : BuildMode) (d : Definition),
      ((d.build mode).run (afterAll before)).1 = ((d.build mode).run (afterAll before')).1 ∧
      ∀ s, ((d.build mode).run (afterAll before)).1 = .ok s → ∀ t ∈ s.tables, ∀ f ∈ t.fields,
        ∀ group bound, f.type.group? = some (group, bound) →
          (bound = none ↔ d.table? group = none) ∧
          ∀ table, bound = some table → table ∈ s.tables ∧ table.name = group := by
  have plain := plain_afterAll before
  have plain' := plain_afterAll before'
  refine ⟨fun text => (FieldType.ofText_same text plain plain').map_eq, ?_⟩
  intro mode d
  constructor
  · exact Definition.build_eq plain plain'
  · intro s built t ht f hf group bound refers
    have declares := Definition.declares_of_build plain built
    obtain ⟨_, field⟩ := declares.exists_field ht hf
    refine ⟨FieldType.eq_none_iff_of_resolved f.type field.resolved refers, ?_⟩
    rintro table rfl
    exact FieldType.within_group? f.type (declares.nested t ht f hf) refers

end Interner

namespace Household

/-- The person without the address. -/
def homeless : Definition := ⟨"Household", [
  ⟨"Person", 1, [⟨1, "home", "Address", ["required"], none⟩]⟩]⟩

/-- After the next version was built, its tables were interned and a type was refused, the household
is built as before, and a home without address has none. -/
theorem forgetful_household :
    let before : List Interner.Request :=
      [.build .strict nextDefinition, .intern (.list (.bound nextAddress)), .read "list<list<byte>>",
        .build .strict homeless]
    ((definition.build .strict).run (Interner.afterAll before)).1 = .ok schema ∧
      ((homeless.build .lenient).run (Interner.afterAll before)).1 =
        .ok ⟨"Household", [⟨"Person", 1, [{ home with type := .unbound "Address" }]⟩]⟩ := by
  intro before
  have forgets := (Interner.forgetful before []).2
  exact ⟨(forgets .strict definition).1.trans built_schema,
    (forgets .lenient homeless).1.trans (by cbv)⟩

end Household

end RecordFormat
