import RecordFormat.Proofs.Schema.Builds

/-!
# The grammar of type texts

A type text spells a type: it is the name of a primitive or of a group, or `list<` and `>` around
such a name, and blanks may surround the text and the name (`FieldType.Spells`). Exactly these texts
are read, each as the type that it spells, whatever was interned before; and the text of a type that
was read is read as the very same entry ever after (`FieldType.ofText_exact`).
-/

namespace RecordFormat

open Outcome

/-! ## Entries are kept -/

namespace Interner

theorem extends_after {i : Interner} (plain : i.Plain) (request : Request) :
    i.Extends (request.after i) := by
  cases request with
  | intern type => exact extends_intern type i
  | primitive p => exact extends_intern (.primitive p) i
  | group name => exact extends_intern (.unbound name) i
  | list element =>
      show i.Extends ((Interner.list element).run i).2
      unfold Interner.list
      cases element.listOf with
      | ok type => exact extends_intern type i
      | error e => exact List.prefix_rfl
  | read text => exact (FieldType.ofText_ends text plain).after
  | build mode d => exact Definition.extends_build plain

/-- Requests one after the other keep every entry. -/
theorem foldl_after (requests : List Request) {i : Interner} (plain : i.Plain) :
    (requests.foldl Request.after i).Plain ∧ i.Extends (requests.foldl Request.after i) := by
  induction requests generalizing i with
  | nil => exact ⟨plain, List.prefix_rfl⟩
  | cons request rest ih =>
      obtain ⟨plain', grown⟩ := ih (plain_after plain request)
      exact ⟨plain', (extends_after plain request).trans grown⟩

end Interner

namespace FieldType

/-! ## The grammar -/

/-- The type that a name is for: the primitive that is called so, or else the group. Sentinels and
what is called like them cannot be named. -/
inductive Names : String → FieldType → Prop
  | primitive {p : Primitive} : p ∈ Primitive.all → Names p.name (.primitive p)
  | group {name : String} : Text.TableName name → (∀ p : Primitive, name ≠ p.name) →
      Names name (.unbound name)

/-- `list<` and `>` around a text. -/
def listText (inner : List Char) : List Char := 'l' :: 'i' :: 's' :: 't' :: '<' :: inner ++ ['>']

/-- The type that a text spells: what a name is for, or the list of that. -/
inductive Spells (cs : List Char) : FieldType → Prop
  | name {name : String} {type : FieldType} : Text.Strips cs name.toList → Names name type →
      Spells cs type
  | list {inner : List Char} {name : String} {element : FieldType} :
      Text.Strips cs (listText inner) → Text.Strips inner name.toList → Names name element →
      Spells cs (.list element)

theorem listElement?_eq_some_iff {cs inner : List Char} :
    listElement? cs = some inner ↔ cs = listText inner := by
  constructor
  · intro h
    unfold listElement? at h
    split at h
    · next rest =>
      split at h
      · next last reversed =>
        cases h
        rw [← List.reverse_reverse rest, reversed]
        simp [listText]
      · cases h
    · cases h
  · rintro rfl
    simp [listText, listElement?]

namespace Names

variable {name : String} {type : FieldType}

theorem isNameTail (h : Names name type) : ∀ c ∈ name.toList, Text.isNameTail c = true := by
  cases h with
  | primitive mem => exact Text.isNameTail_of_primitive mem
  | group named => exact Text.isNameTail_of_isTableName (Text.isTableName_iff.mpr named)

theorem not_list (h : Names name type) : type.isList = false ∧ type.isSentinel = false := by
  cases h with
  | primitive mem =>
      refine ⟨rfl, ?_⟩
      rw [← Bool.not_eq_true]
      exact mt Primitive.isSentinel_iff.mp (not_not.mpr mem)
  | group => exact ⟨rfl, rfl⟩

end Names

theorem ofName?_eq_none {name : String} (h : ∀ p : Primitive, name ≠ p.name) :
    Primitive.ofName? name = none := by
  refine List.find?_eq_none.mpr fun p _ => ?_
  simpa using (h p).symm

theorem isGroupName_iff {name : String} : isGroupName name = true ↔ Text.TableName name ∧
    name ≠ Primitive.null.name ∧ name ≠ Primitive.unknown.name := by
  simp [isGroupName, Text.isTableName_iff, and_assoc]

/-- What is read as something else than a list is named. -/
theorem names_iff_parse {cs : List Char} {type : FieldType} :
    (∃ name : String, Text.Strips cs name.toList ∧ Names name type) ↔
      parse cs = .ok type ∧ type.isList = false := by
  constructor
  · rintro ⟨name, strips, names⟩
    refine ⟨?_, names.not_list.1⟩
    have trimmed := Text.strips_iff.mp strips
    rw [parse_of_none (trimmed.symm ▸ listElement?_name names.isNameTail), trimmed,
      String.ofList_toList]
    cases names with
    | primitive mem => rw [Primitive.ofName?_name mem]
    | group named other =>
        rw [ofName?_eq_none other]
        exact if_pos (isGroupName_iff.mpr ⟨named, other .null, other .unknown⟩)
  · rintro ⟨denotes, single⟩
    cases found : listElement? (Text.trimBlanks cs) with
    | some inner =>
        rw [parse_of_some found] at denotes
        obtain ⟨element, -, made⟩ := bind_eq_ok_iff.mp denotes
        rw [(eq_of_listOf made).1] at single
        cases single
    | none =>
        rw [parse_of_none found] at denotes
        refine ⟨String.ofList (Text.trimBlanks cs), ?_, ?_⟩
        · rw [Text.strips_iff, String.toList_ofList]
        generalize String.ofList (Text.trimBlanks cs) = name at denotes
        cases known : Primitive.ofName? name with
        | some p =>
            rw [known] at denotes
            cases denotes
            have named : p.name = name := by simpa using List.find?_some known
            exact named ▸ .primitive (List.mem_of_find?_eq_some known)
        | none =>
            rw [known] at denotes
            dsimp only at denotes
            split at denotes
            · next group =>
              cases denotes
              obtain ⟨named, notNull, notUnknown⟩ := isGroupName_iff.mp group
              refine .group named fun p same => ?_
              have absent := List.find?_eq_none.mp known p
              cases p with
              | null => exact notNull same
              | unknown => exact notUnknown same
              | _ => exact absent (by decide) (decide_eq_true same.symm)
            · cases denotes

/-- **The texts that denote a type are those that spell it.** -/
theorem parse_eq_ok_iff {cs : List Char} {type : FieldType} :
    parse cs = .ok type ↔ Spells cs type := by
  constructor
  · intro denotes
    cases found : listElement? (Text.trimBlanks cs) with
    | some inner =>
        rw [parse_of_some found] at denotes
        obtain ⟨element, read, made⟩ := bind_eq_ok_iff.mp denotes
        obtain ⟨rfl, single, -⟩ := eq_of_listOf made
        obtain ⟨name, strips, names⟩ := names_iff_parse.mpr ⟨read, single⟩
        exact .list (Text.strips_iff.mpr (listElement?_eq_some_iff.mp found)) strips names
    | none =>
        have single : type.isList = false := by
          rw [parse_of_none found] at denotes
          split at denotes
          · cases denotes
            rfl
          · split at denotes
            · cases denotes
              rfl
            · cases denotes
        obtain ⟨name, strips, names⟩ := names_iff_parse.mpr ⟨denotes, single⟩
        exact .name strips names
  · intro spells
    cases spells with
    | name strips names => exact (names_iff_parse.mp ⟨_, strips, names⟩).1
    | list outside strips names =>
        have found := listElement?_eq_some_iff.mpr (Text.strips_iff.mp outside)
        rw [parse_of_some found, (names_iff_parse.mp ⟨_, strips, names⟩).1]
        show listOf _ = _
        rw [listOf, names.not_list.1, names.not_list.2]
        rfl

/-- A list inside a list is not read, whatever is in it. -/
theorem parse_nested {cs outer inner : List Char} (outside : Text.Strips cs (listText outer))
    (inside : Text.Strips outer (listText inner)) {type : FieldType} : parse cs ≠ .ok type := by
  intro denotes
  have found := listElement?_eq_some_iff.mpr (Text.strips_iff.mp outside)
  have found' := listElement?_eq_some_iff.mpr (Text.strips_iff.mp inside)
  rw [parse_of_some found, parse_of_some found'] at denotes
  obtain ⟨element, read, made⟩ := bind_eq_ok_iff.mp denotes
  obtain ⟨_, -, list⟩ := bind_eq_ok_iff.mp read
  obtain ⟨-, single, -⟩ := eq_of_listOf made
  rw [(eq_of_listOf list).1] at single
  cases single

/-! ## Reading again -/

/-- A type that is known is read as its entry, and nothing is interned. -/
theorem internChars_known (cs : List Char) {i : Interner} {a : Interned} (plain : i.Plain)
    (denotes : parse cs = .ok a.type) (known : i.Knows a) :
    (internChars cs).run i = (.ok a, i) := by
  have entry : ∀ type, type = a.type →
      (liftM (Interner.intern type) : ExceptT ModelError (StateM Interner) Interned).run i =
        (.ok a, i) := by
    rintro _ rfl
    show (Except.ok (Interner.intern a.type i).1, (Interner.intern a.type i).2) = _
    rw [known.toHolds.intern_eq plain]
  rw [internChars]
  split
  · next inner found =>
    have shorter := length_of_inner found
    rw [parse_of_some found] at denotes
    obtain ⟨element, read, made⟩ := bind_eq_ok_iff.mp denotes
    obtain ⟨type, single, -⟩ := eq_of_listOf made
    obtain ⟨b, holds, rfl⟩ := known.element element type
    rw [Steps.run_bind, internChars_known inner plain read (holds.knows single)]
    show (Interner.list b.type).run i = _
    unfold Interner.list
    rw [made]
    exact entry a.type rfl
  · next found =>
    rw [parse_of_none found] at denotes
    dsimp only
    generalize String.ofList (Text.trimBlanks cs) = name at denotes ⊢
    cases named : Primitive.ofName? name with
    | some p =>
        rw [named] at denotes
        exact entry (.primitive p) (Except.ok.inj denotes)
    | none =>
        rw [named] at denotes
        dsimp only at denotes ⊢
        split at denotes
        · next group =>
          rw [if_pos group]
          exact entry (.unbound name) (Except.ok.inj denotes)
        · cases denotes
termination_by cs.length

/-- **Type texts are read by their grammar.** Whatever was interned before, a text is read exactly
when it spells a type, and as that type; lists of lists are refused at any depth. The text of a type
that was read is then read as the same entry, with nothing interned, whatever else is asked for in
between. -/
theorem ofText_exact (before : List Interner.Request) (text : String) :
    (∀ type, ((ofText text).run (Interner.afterAll before)).1.map Interned.type = .ok type ↔
      Spells text.toList type) ∧
    (∀ outer inner, Text.Strips text.toList (listText outer) → Text.Strips outer (listText inner) →
      ∃ e, ((ofText text).run (Interner.afterAll before)).1 = .error e) ∧
    ∀ a i, (ofText text).run (Interner.afterAll before) = (.ok a, i) →
      ∀ between : List Interner.Request,
        (ofText a.type.text).run (between.foldl Interner.Request.after i) =
          (.ok a, between.foldl Interner.Request.after i) := by
  have plain := Interner.plain_afterAll before
  have alike := ofText_alike text plain
  refine ⟨?_, ?_, ?_⟩
  · intro type
    rw [alike.map_eq_right, parse_eq_ok_iff]
  · intro outer inner outside inside
    cases read : ((ofText text).run (Interner.afterAll before)).1 with
    | error e => exact ⟨e, rfl⟩
    | ok a =>
        rw [read] at alike
        obtain ⟨t, denotes, -⟩ := alike.ok_left
        exact absurd denotes (parse_nested outside inside)
  · intro a i read between
    have ends := internChars_ends text.toList plain
    rw [show internChars text.toList = ofText text from rfl] at ends
    rw [read] at alike
    obtain ⟨keeps, -, returns⟩ := ends
    rw [read] at keeps returns
    obtain ⟨plain', grown⟩ := Interner.foldl_after between keeps
    obtain ⟨_, denotes, rfl⟩ := alike.ok_left
    exact internChars_known _ plain' (parse_text _ denotes) ((returns a rfl).grown grown)

end FieldType

namespace Household

/-- The list of addresses may be written with blanks; without them it is the entry made for it, also
after a list of lists was refused. -/
theorem ofText_exact_addresses :
    let before := [Interner.Request.read "Address"]
    let addresses : Interned := ⟨1, .list (.unbound "Address")⟩
    let interner : Interner := ⟨[.unbound "Address", .list (.unbound "Address")]⟩
    let later := Interner.Request.after interner (.read "list<list<byte>>")
    FieldType.Spells " list< Address > ".toList addresses.type ∧
      (∃ e, ((FieldType.ofText "list<list<byte>>").run (Interner.afterAll before)).1 = .error e) ∧
      (FieldType.ofText " list< Address > ").run (Interner.afterAll before) =
        (.ok addresses, interner) ∧
      (FieldType.ofText addresses.type.text).run later = (.ok addresses, later) := by
  intro before addresses interner later
  have read : (FieldType.ofText " list< Address > ").run (Interner.afterAll before) =
      (.ok addresses, interner) := by cbv
  obtain ⟨spells, -, again⟩ := FieldType.ofText_exact before " list< Address > "
  obtain ⟨-, nested, -⟩ := FieldType.ofText_exact before "list<list<byte>>"
  refine ⟨(spells _).mp (by rw [read]; rfl), ?_, read, again _ _ read [.read "list<list<byte>>"]⟩
  refine nested "list<byte>".toList "byte".toList ?_ ?_
  · exact Text.strips_iff.mpr (by decide +kernel)
  · exact Text.strips_iff.mpr (by decide +kernel)

end Household

end RecordFormat
