import Mathlib
import RecordFormat.Proofs.Schema.Builds
import RecordFormat.Proofs.Schema.Declared
import RecordFormat.Tool.Commands

/-!
# Strict and lenient builds

What a strict build makes a lenient one makes too, and other failures than that of a group without
table are the same. A lenient build that passes the check of schemas has left no group unbound, so a
strict build makes the same schema (`Definition.modes_agree`): what the tool validates it also loads
for encoding and decoding.
-/

namespace RecordFormat

open Outcome

/-! ## Checked lenient builds -/

namespace Definition

variable {mode : BuildMode} {d : Definition} {i i' : Interner} {s : Schema}

/-- Where every group is bound, both modes bind alike. -/
theorem resolved_of_bound : ∀ type : FieldType, type.Resolved .lenient d →
    (∀ group, type.group? ≠ some (group, none)) → type.Resolved .strict d
  | .primitive _, _, _ => trivial
  | .unbound group, _, bound => absurd rfl (bound group)
  | .bound _, resolved, _ => resolved
  | .list element, resolved, bound => resolved_of_bound element resolved bound

/-- **A checked schema is declared strictly.** A group that is left unbound names no table of the
definition, hence none of the schema. -/
theorem Declares.strict_of_check (h : d.Declares .lenient s) (checked : s.check = .ok ()) :
    d.Declares .strict s where
  tables := by
    apply forall₂_imp_of_mem h.tables
    intro u _ t ht declares
    refine ⟨?_, declares.created⟩
    apply forall₂_imp_of_mem declares.fields
    intro f _ g hg declared
    refine ⟨declared.denotes, ?_, declared.complete⟩
    apply resolved_of_bound g.type declared.resolved
    intro group unbound
    have absent := (FieldType.eq_none_iff_of_resolved g.type declared.resolved unbound).mp rfl
    have present := Schema.isSome_table?_of_check checked ht hg unbound
    rw [← h.isSome_table?, absent] at present
    cases present
  created := h.created
  nested := h.nested

end Definition

/-! ## Loading a definition file -/

namespace Tool

variable {α β ε : Type} {files files' : Directory} {path : String} {mode : BuildMode}
  {i i' : Interner} {s : Schema} {lines lines' : List String}

/-- The second command is run where the first one succeeds. -/
theorem run_bind_eq_ok_iff {x : CommandM (StateM Directory) α}
    {f : α → CommandM (StateM Directory) β} {b : β} :
    ((x >>= f).run lines).run files = ((.ok b, lines'), files') ↔
      ∃ a lines₁ files₁, (x.run lines).run files = ((.ok a, lines₁), files₁) ∧
        ((f a).run lines₁).run files₁ = ((.ok b, lines'), files') := by
  show ((ExceptT.bind x f).run lines).run files = _ ↔ _
  have run : ((ExceptT.bind x f).run lines).run files = match (x.run lines).run files with
      | ((.ok a, lines₁), files₁) => ((f a).run lines₁).run files₁
      | ((.error e, lines₁), files₁) => ((.error e, lines₁), files₁) := by
    simp only [ExceptT.bind, ExceptT.mk, ExceptT.run, Bind.bind, StateT.bind, StateT.run,
      ExceptT.bindCont]
    rcases x lines files with ⟨⟨_ | _, _⟩, _⟩ <;> rfl
  rw [run]
  rcases (x.run lines).run files with ⟨⟨e | a, lines₁⟩, files₁⟩
  · exact ⟨nofun, nofun⟩
  · exact ⟨fun h => ⟨a, lines₁, files₁, rfl, h⟩, fun ⟨_, _, _, rfl, h⟩ => h⟩

theorem orFail_eq_ok_iff {message : ε → String} {contexts : List String} {x : Except ε α} {a : α} :
    ((orFail (m := StateM Directory) message contexts x).run lines).run files =
      ((.ok a, lines'), files') ↔ x = .ok a ∧ lines' = lines ∧ files' = files := by
  cases x with
  | error e => exact ⟨nofun, nofun⟩
  | ok b =>
      show ((Except.ok b, lines), files) = _ ↔ _
      simp only [Prod.mk.injEq, Except.ok.injEq, eq_comm, and_assoc]

/-- Reading a definition changes nothing. -/
theorem exists_load (files : Directory) (path : String) : ∃ loaded,
    (Definition.load Directory.access path).run files = (loaded, files) := by
  unfold Definition.load
  simp only [Directory.access, StateT.run_bind, StateT.run_get, pure_bind, StateT.run_pure]
  split
  · exact ⟨_, rfl⟩
  · split
    · exact ⟨_, rfl⟩
    · exact ⟨_, rfl⟩

theorem run_load : ((liftM (Definition.load Directory.access path) :
      CommandM (StateM Directory) (Except ModelError Definition)).run lines).run files =
    ((.ok ((Definition.load Directory.access path).run files).1, lines),
      ((Definition.load Directory.access path).run files).2) := rfl

/-- A schema is loaded when a definition is read and built. -/
theorem loadSchema_eq_ok_iff :
    ((loadSchema Directory.access mode path i).run lines).run files =
      ((.ok (s, i'), lines'), files') ↔ lines' = lines ∧ files' = files ∧
      ∃ d, (Definition.load Directory.access path).run files = (.ok d, files) ∧
        (d.build mode).run i = (.ok s, i') := by
  obtain ⟨loaded, read⟩ := exists_load files path
  unfold loadSchema
  rw [run_bind_eq_ok_iff, run_load, read]
  constructor
  · rintro ⟨_, _, _, ⟨⟩, rest⟩
    obtain ⟨d, _, _, known, build⟩ := run_bind_eq_ok_iff.mp rest
    obtain ⟨rfl, rfl, rfl⟩ := orFail_eq_ok_iff.mp known
    rcases built : (d.build mode).run i with ⟨outcome, interner⟩
    rw [built] at build
    obtain ⟨_, _, _, made, done⟩ := run_bind_eq_ok_iff.mp build
    obtain ⟨rfl, rfl, rfl⟩ := orFail_eq_ok_iff.mp made
    cases done
    exact ⟨rfl, rfl, d, rfl, built⟩
  · rintro ⟨rfl, rfl, d, read, built⟩
    cases read
    refine ⟨_, _, _, rfl, run_bind_eq_ok_iff.mpr ⟨d, _, _, rfl, ?_⟩⟩
    rw [built]
    rfl

/-- A definition file is validated when its schema is built leniently and passes the check. -/
theorem validate_eq_ok_iff :
    (((validate Directory.access path).run lines).run files).1.1 = .ok () ↔
      ∃ d s, (Definition.load Directory.access path).run files = (.ok d, files) ∧
        ((d.build .lenient).run {}).1 = .ok s ∧ s.check = .ok () := by
  constructor
  · intro valid
    rcases run : ((validate Directory.access path).run lines).run files with
      ⟨⟨outcome, lines'⟩, files'⟩
    rw [run] at valid
    obtain rfl : outcome = .ok () := valid
    obtain ⟨⟨s, i'⟩, _, _, loaded, rest⟩ := run_bind_eq_ok_iff.mp run
    obtain ⟨rfl, rfl, d, read, built⟩ := loadSchema_eq_ok_iff.mp loaded
    obtain ⟨_, _, _, here, -⟩ := run_bind_eq_ok_iff.mp rest
    exact ⟨d, s, read, congrArg Prod.fst built, (orFail_eq_ok_iff.mp here).1⟩
  · rintro ⟨d, s, read, built, checked⟩
    have loaded : ((loadSchema Directory.access .lenient path {}).run lines).run files =
        ((.ok (s, ((d.build .lenient).run {}).2), lines), files) :=
      loadSchema_eq_ok_iff.mpr ⟨rfl, rfl, d, read, Prod.ext built rfl⟩
    have run : ∃ lines', ((validate Directory.access path).run lines).run files =
        ((.ok (), lines'), files) :=
      ⟨_, run_bind_eq_ok_iff.mpr ⟨_, lines, files, loaded, run_bind_eq_ok_iff.mpr
        ⟨(), lines, files, orFail_eq_ok_iff.mpr ⟨checked, rfl, rfl⟩, rfl⟩⟩⟩
    obtain ⟨_, run⟩ := run
    rw [run]

theorem load_of_place {name : String} (text : String) {d : Definition}
    (place : files.readPlace path = .ok (.file name))
    (found : files.find? name = some (Text.utf8 text)) (denotes : Definition.ofText text = .ok d) :
    (Definition.load Directory.access path).run files = (.ok d, files) := by
  unfold Definition.load
  simp only [Directory.access, StateT.run_bind, StateT.run_get, pure_bind, StateT.run_pure]
  rw [place, ok_bind]
  dsimp only
  rw [found]
  dsimp only [pure, Except.pure]
  rw [Text.ofUtf8?_utf8, ← denotes]
  rfl

end Tool

/-! ## The two modes -/

namespace Definition

/-- **The build modes agree.** What is built strictly is built leniently; a definition that fails
strictly, and not for a group without table, fails leniently with the same error; and a checked
schema that is built leniently is built strictly. So whenever a definition file is validated, it is
loaded strictly. -/
theorem modes_agree (d : Definition) (before before' : List Interner.Request) :
    (∀ s, ((d.build .strict).run (Interner.afterAll before)).1 = .ok s →
      ((d.build .lenient).run (Interner.afterAll before')).1 = .ok s) ∧
    (∀ e, ((d.build .strict).run (Interner.afterAll before)).1 = .error e →
      (∀ table field group, e ≠ .unresolvedGroup table field group) →
        ((d.build .lenient).run (Interner.afterAll before')).1 = .error e) ∧
    (∀ s, ((d.build .lenient).run (Interner.afterAll before')).1 = .ok s → s.check = .ok () →
      ((d.build .strict).run (Interner.afterAll before)).1 = .ok s) ∧
    ∀ (files : Directory) (path : String) (lines lines' : List String),
      (load Directory.access path).run files = (.ok d, files) →
      (((Tool.validate Directory.access path).run lines).run files).1.1 = .ok () →
        ∃ s i, ((Tool.loadSchema Directory.access .strict path {}).run lines').run files =
          ((.ok (s, i), lines'), files) ∧ s.check = .ok () := by
  have plain := Interner.plain_afterAll before
  have plain' := Interner.plain_afterAll before'
  have follows : _ ∨ ∃ e, _ ∧ GivesUp .strict .lenient e :=
    build_agrees (d := d) (.inr rfl) plain plain'
  refine ⟨?_, ?_, ?_, ?_⟩
  · intro s built
    rcases follows with same | ⟨e, failed, -⟩
    · exact same.symm.trans built
    · cases built.symm.trans failed
  · intro e failed other
    rcases follows with same | ⟨e', failed', -, table, field, group, rfl⟩
    · exact same.symm.trans failed
    · cases failed.symm.trans failed'
      exact absurd rfl (other table field group)
  · intro s built checked
    exact build_of_declares ((declares_of_build plain' built).strict_of_check checked) plain
  · intro files path lines lines' read valid
    obtain ⟨d', s, read', built, checked⟩ := Tool.validate_eq_ok_iff.mp valid
    cases read.symm.trans read'
    have empty : Interner.Plain {} := Interner.plain_afterAll []
    have strict := build_of_declares ((declares_of_build empty built).strict_of_check checked) empty
    exact ⟨s, _, Tool.loadSchema_eq_ok_iff.mpr ⟨rfl, rfl, d, read, Prod.ext strict rfl⟩, checked⟩

end Definition

namespace Household

/-- Two tables that need each other; one needs a third one that is missing, too. -/
def tangled : Definition := ⟨"Household", [
  ⟨"Address", 1, [⟨1, "owner", "list<Person>", ["required"], none⟩,
    ⟨2, "street", "Street", ["required"], none⟩]⟩,
  ⟨"Person", 1, [⟨1, "home", "Address", ["required"], none⟩]⟩]⟩

def addresses : Definition :=
  ⟨"Household", [⟨"Address", 1, [⟨1, "zip", "int32", ["required"], none⟩]⟩]⟩

/-- The addresses alone, written as arrays. -/
def addressesText : String :=
  "[\"Household\",[[\"Address\",1,[[1,\"zip\",\"int32\",[\"required\"]]]]]]"

def directory : Directory := ⟨[("h", Text.utf8 addressesText)]⟩

theorem load_addresses :
    (Definition.load Directory.access "h").run directory = (.ok addresses, directory) := by
  have place : ∀ files : Directory, files.readPlace "h" = .ok (.file "h") := by
    intro files
    cbv
  exact Tool.load_of_place addressesText (place directory) rfl rfl

theorem modes_agree_household : ((definition.build .lenient).run {}).1 = .ok schema ∧
    ((tangled.build .lenient).run {}).1 = .error (.cyclicGroup "Address") ∧
    ((nextDefinition.build .strict).run {}).1 = .ok nextSchema ∧
    ∃ s i, ((Tool.loadSchema Directory.access .strict "h" {}).run []).run directory =
      ((.ok (s, i), []), directory) ∧ s.check = .ok () := by
  refine ⟨(definition.modes_agree [] []).1 schema built_schema,
    (tangled.modes_agree [] []).2.1 _ (by cbv) (fun _ _ _ same => nomatch same),
    (nextDefinition.modes_agree [] []).2.2.1 nextSchema (by cbv) rfl, ?_⟩
  have valid : (((Tool.validate Directory.access "h").run []).run directory).1.1 = .ok () :=
    Tool.validate_eq_ok_iff.mpr ⟨addresses, ⟨"Household", [address]⟩, load_addresses, by cbv, rfl⟩
  exact (addresses.modes_agree [] []).2.2.2 directory "h" [] [] load_addresses valid

end Household

end RecordFormat
