import Mathlib
import RecordFormat.Proofs.Schema.Grammar

/-!
# One entry for each type

Requests for single types, one after the other, intern a list of types: a request for a type interns
that type last, and a type text interns what the texts inside it spell even where it is refused
itself (`Interner.Request.exists_internAll`). So an interner has one entry for each type that was
interned, groups taken by name. Whenever a type is asked for, the answer is that entry, and it stays
what it is (`Interner.canonical_afterAll`).
-/

namespace RecordFormat

open Outcome
open Relation (ReflTransGen TransGen)

namespace FieldType

/-! ## Types that are the same -/

/-- Sameness as an equivalence. -/
def sameness : Setoid FieldType where
  r t u := t.same u = true
  iseqv := {
    refl := fun _ => same_iff.mpr rfl
    symm := fun h => same_iff.mpr (same_iff.mp h).symm
    trans := fun h h' => same_iff.mpr ((same_iff.mp h).trans (same_iff.mp h')) }

/-- The type, or its elements at any depth, are bound to the table. -/
inductive BoundTo : FieldType → Table → Prop
  | group (table : Table) : BoundTo (.bound table) table
  | list {element : FieldType} {table : Table} : BoundTo element table →
      BoundTo (.list element) table

theorem not_boundTo_of_detach {type : FieldType} {table : Table} (named : type.detach = type) :
    ¬ type.BoundTo table := by
  intro bound
  induction bound with
  | group table => cases named
  | list _ ih => exact ih (FieldType.list.inj named)

/-! ## What reading a text interns -/

/-- The outer text is `list<` and `>` around the inner one, blanks aside. -/
def Encloses (outer inner : List Char) : Prop := Text.Strips outer (listText inner)

theorem encloses_iff {outer inner : List Char} :
    Encloses outer inner ↔ listElement? (Text.trimBlanks outer) = some inner :=
  Text.strips_iff.trans listElement?_eq_some_iff.symm

/-- The types that are interned when a text is read: what the text inside interns, and then the type
that the text denotes. -/
def interned (cs : List Char) : List FieldType :=
  (match _h : listElement? (Text.trimBlanks cs) with
    | some inner => interned inner
    | none => []) ++ (parse cs).toOption.toList
termination_by cs.length
decreasing_by
  exact length_of_inner _h

variable {cs inner : List Char}

theorem interned_of_some (found : listElement? (Text.trimBlanks cs) = some inner) :
    interned cs = interned inner ++ (parse cs).toOption.toList := by
  rw [interned]
  split
  · next other found' =>
    obtain rfl : inner = other := Option.some.inj (found.symm.trans found')
    rfl
  · next absent => cases found.symm.trans absent

theorem interned_of_none (found : listElement? (Text.trimBlanks cs) = none) :
    interned cs = (parse cs).toOption.toList := by
  rw [interned]
  split
  · next found' => cases found.symm.trans found'
  · rfl

theorem mem_denoted {type : FieldType} : type ∈ (parse cs).toOption.toList ↔ Spells cs type := by
  rw [Option.mem_toList, toOption_eq_some_iff, parse_eq_ok_iff]

/-- **What a text and the texts inside it spell is interned**, and nothing else. -/
theorem mem_interned (cs : List Char) {type : FieldType} :
    type ∈ interned cs ↔ ∃ part, ReflTransGen Encloses cs part ∧ Spells part type := by
  cases found : listElement? (Text.trimBlanks cs) with
  | some inner =>
      have shorter := length_of_inner found
      have encloses := encloses_iff.mpr found
      rw [interned_of_some found, List.mem_append, mem_interned inner, mem_denoted]
      constructor
      · rintro (⟨part, inside, spells⟩ | spells)
        · exact ⟨part, .head encloses inside, spells⟩
        · exact ⟨cs, .refl, spells⟩
      · rintro ⟨part, inside, spells⟩
        rcases inside.cases_head with rfl | ⟨inner', encloses', inside⟩
        · exact .inr spells
        · obtain rfl := Option.some.inj (found.symm.trans (encloses_iff.mp encloses'))
          exact .inl ⟨part, inside, spells⟩
  | none =>
      rw [interned_of_none found, mem_denoted]
      constructor
      · intro spells
        exact ⟨cs, .refl, spells⟩
      · rintro ⟨part, inside, spells⟩
        rcases inside.cases_head with rfl | ⟨inner, encloses, -⟩
        · exact spells
        · cases found.symm.trans (encloses_iff.mp encloses)
termination_by cs.length

end FieldType

namespace Interner

/-! ## Interning one type after the other -/

/-- The interner after some types were interned. -/
def internAll (i : Interner) (types : List FieldType) : Interner :=
  types.foldl (fun i type => (Interner.intern type i).2) i

variable {i : Interner}

theorem internAll_append (types types' : List FieldType) :
    i.internAll (types ++ types') = (i.internAll types).internAll types' :=
  List.foldl_append

/-- An interner of named types without repetition, and which types these are. -/
structure Lists (i : Interner) (types : List FieldType) : Prop where
  plain : i.Plain
  distinct : i.entries.Nodup
  mem : ∀ entry, entry ∈ i.entries ↔ ∃ type ∈ types, type.detach = entry

theorem lists_empty : Lists {} [] where
  plain := by
    intro entry mem
    cases mem
  distinct := .nil
  mem := by simp

/-- One more type has an entry already, or gets one behind the others. -/
theorem Lists.intern {types : List FieldType} (h : i.Lists types) (type : FieldType) :
    (Interner.intern type i).2.Lists (types ++ [type]) := by
  have mem : ∀ entry, (∃ t ∈ types ++ [type], t.detach = entry) ↔
      entry ∈ i.entries ∨ entry = type.detach := by
    intro entry
    rw [h.mem]
    simp [or_and_right, exists_or, eq_comm]
  cases found : i.entries.findIdx? type.detach.same with
  | some index =>
      rw [intern_of_some h.plain found]
      refine ⟨h.plain, h.distinct, ?_⟩
      intro entry
      rw [mem]
      constructor
      · exact .inl
      · rintro (old | rfl)
        · exact old
        · exact List.mem_of_getElem? (entry_of_findIdx? h.plain found)
  | none =>
      have plain := plain_intern type h.plain
      rw [intern_of_none found] at plain ⊢
      refine ⟨plain, ?_, ?_⟩
      · have fresh : type.detach ∉ i.entries := by
          intro old
          have other := List.findIdx?_eq_none_iff.mp found _ old
          rw [FieldType.same_iff.mpr rfl] at other
          cases other
        exact List.nodup_append_comm.mp (List.nodup_cons.mpr ⟨fresh, h.distinct⟩)
      · intro entry
        rw [mem, List.mem_append, List.mem_singleton]

/-- **Every type that was interned has one entry.** -/
theorem lists_internAll (types : List FieldType) : Lists (internAll {} types) types := by
  induction types using List.reverseRecOn with
  | nil => exact lists_empty
  | append_singleton types type ih =>
      rw [internAll_append]
      exact ih.intern type

/-- Entries are counted up to sameness. -/
theorem Lists.encard {types : List FieldType} (h : i.Lists types) :
    (Quotient.mk FieldType.sameness '' {type | type ∈ types}).encard = i.size := by
  let entryOf (k : Fin i.size) : Quotient FieldType.sameness := Quotient.mk _ (i.entries.get k)
  have injective : Function.Injective entryOf := by
    intro k l same
    have detached := FieldType.same_iff.mp (Quotient.exact same)
    rw [h.plain _ (List.get_mem i.entries k), h.plain _ (List.get_mem i.entries l)] at detached
    exact List.nodup_iff_injective_get.mp h.distinct detached
  have range : Quotient.mk FieldType.sameness '' {type | type ∈ types} = Set.range entryOf := by
    have same (type : FieldType) :
        Quotient.mk FieldType.sameness type.detach = Quotient.mk FieldType.sameness type :=
      Quotient.sound (FieldType.same_iff.mpr (FieldType.detach_detach type))
    ext q
    constructor
    · rintro ⟨type, mem, rfl⟩
      obtain ⟨k, entry⟩ := List.get_of_mem ((h.mem _).mpr ⟨type, mem, rfl⟩)
      exact ⟨k, (congrArg (Quotient.mk _) entry).trans (same type)⟩
    · rintro ⟨k, rfl⟩
      obtain ⟨type, mem, entry⟩ := (h.mem _).mp (List.get_mem i.entries k)
      exact ⟨type, mem, (same type).symm.trans (congrArg (Quotient.mk _) entry)⟩
  rw [range, ← Set.image_univ, injective.encard_image, Set.encard_univ,
    ENat.card_eq_coe_fintype_card, Fintype.card_fin]

end Interner

/-! ## Reading a type text -/

namespace FieldType

variable {i : Interner}

theorem listOf_eq_ok_iff {element type : FieldType} : element.listOf = .ok type ↔
    type = .list element ∧ element.isList = false ∧ element.isSentinel = false := by
  constructor
  · exact eq_of_listOf
  · rintro ⟨rfl, single, valued⟩
    rw [listOf, single, valued]
    rfl

/-- Reading a text interns what it and the texts inside it spell. -/
theorem internChars_interned (cs : List Char) (plain : i.Plain) :
    ((internChars cs).run i).2 = i.internAll (interned cs) := by
  rw [internChars]
  split
  · next inner found =>
    have shorter := length_of_inner found
    have first := internChars_interned inner plain
    have read := internChars_alike inner plain
    rw [Steps.run_bind, interned_of_some found, Interner.internAll_append, ← first,
      parse_of_some found]
    generalize (internChars inner).run i = result at read ⊢
    generalize parse inner = denoted at read ⊢
    obtain ⟨outcome, s⟩ := result
    cases read with
    | error e => rfl
    | @ok a t same =>
        subst same
        show ((Interner.list a.type).run s).2 = s.internAll a.type.listOf.toOption.toList
        unfold Interner.list
        cases a.type.listOf <;> rfl
  · next found =>
    rw [interned_of_none found, parse_of_none found]
    dsimp only
    cases Primitive.ofName? (String.ofList (Text.trimBlanks cs)) with
    | some p => rfl
    | none => cases isGroupName (String.ofList (Text.trimBlanks cs)) <;> rfl
termination_by cs.length

/-- The type that a text denotes is interned last, and returned. -/
theorem internChars_last {cs : List Char} {type : FieldType} (plain : i.Plain)
    (denotes : parse cs = .ok type) : ∃ i' : Interner, i'.Plain ∧
      (internChars cs).run i = (.ok (Interner.intern type i').1, (Interner.intern type i').2) := by
  rw [internChars]
  split
  · next inner found =>
    rw [parse_of_some found] at denotes
    obtain ⟨element, read, made⟩ := bind_eq_ok_iff.mp denotes
    have plain' := (internChars_ends inner plain).keeps
    have alike := internChars_alike inner plain
    rw [read] at alike
    rw [Steps.run_bind]
    generalize (internChars inner).run i = result at plain' alike ⊢
    obtain ⟨outcome, s⟩ := result
    obtain ⟨a, rfl, rfl⟩ := alike.ok_right
    refine ⟨s, plain', ?_⟩
    show (Interner.list a.type).run s = _
    unfold Interner.list
    rw [made]
    rfl
  · next found =>
    refine ⟨i, plain, ?_⟩
    rw [parse_of_none found] at denotes
    dsimp only
    generalize String.ofList (Text.trimBlanks cs) = name at denotes ⊢
    cases known : Primitive.ofName? name with
    | some p =>
        rw [known] at denotes
        cases denotes
        rfl
    | none =>
        rw [known] at denotes
        dsimp only at denotes ⊢
        split at denotes
        · next group =>
          cases denotes
          rw [if_pos group]
          rfl
        · cases denotes

end FieldType

/-! ## Requests -/

namespace Interner

variable {i : Interner} {requests : List Request}

namespace Request

variable {request : Request} {type : FieldType}

/-- The type that a request is for. Lists of lists and of sentinels cannot be asked for by their
elements, and only some texts spell a type. -/
inductive Wants : Request → FieldType → Prop
  | intern (type : FieldType) : Wants (.intern type) type
  | primitive (p : Primitive) : Wants (.primitive p) (.primitive p)
  | group (name : String) : Wants (.group name) (.unbound name)
  | list {element : FieldType} : element.isList = false → element.isSentinel = false →
      Wants (.list element) (.list element)
  | read {text : String} {type : FieldType} : FieldType.Spells text.toList type →
      Wants (.read text) type

/-- The types that a request interns: the one that it is for, and what the texts inside a type text
spell, also where that text spells no type. -/
inductive Interns : Request → FieldType → Prop
  | wanted {request : Request} {type : FieldType} : request.Wants type → Interns request type
  | inside {text : String} {part : List Char} {type : FieldType} :
      TransGen FieldType.Encloses text.toList part → FieldType.Spells part type →
      Interns (.read text) type

/-- The entry that a request is answered with, unless it is refused. -/
inductive Returns (i : Interner) : Request → Interned → Prop
  | intern (type : FieldType) : Returns i (.intern type) (Interner.intern type i).1
  | primitive (p : Primitive) : Returns i (.primitive p) (Interner.primitive p i).1
  | group (name : String) : Returns i (.group name) (Interner.group name i).1
  | list {element : FieldType} {a : Interned} : ((Interner.list element).run i).1 = .ok a →
      Returns i (.list element) a
  | read {text : String} {a : Interned} : ((FieldType.ofText text).run i).1 = .ok a →
      Returns i (.read text) a

/-- The request is for one type, not for the tables of a definition. -/
def Single (request : Request) : Prop := ∀ mode d, request ≠ .build mode d

theorem Returns.unique {a b : Interned} (h : request.Returns i a) (h' : request.Returns i b) :
    a = b := by
  cases h with
  | intern | primitive | group =>
      cases h'
      rfl
  | list answer | read answer =>
      cases h' with
      | _ answer' => exact Except.ok.inj (answer.symm.trans answer')

/-- What is answered is a request for a type. -/
theorem Returns.exists_wants (plain : i.Plain) {a : Interned} (h : request.Returns i a) :
    ∃ type, request.Wants type := by
  cases h with
  | intern type => exact ⟨_, .intern type⟩
  | primitive p => exact ⟨_, .primitive p⟩
  | group name => exact ⟨_, .group name⟩
  | @list element _ answer =>
      unfold Interner.list at answer
      cases made : element.listOf with
      | error e =>
          rw [made] at answer
          cases answer
      | ok type =>
          obtain ⟨-, single, valued⟩ := FieldType.eq_of_listOf made
          exact ⟨_, .list single valued⟩
  | @read text _ answer =>
      have alike := FieldType.ofText_alike text plain
      rw [answer] at alike
      obtain ⟨type, denotes, -⟩ := alike.ok_left
      exact ⟨type, .read (FieldType.parse_eq_ok_iff.mp denotes)⟩

/-- **A request for a type interns that type last, and returns its entry.** -/
theorem Wants.last (wants : request.Wants type) (plain : i.Plain) : ∃ i' : Interner, i'.Plain ∧
    request.after i = (Interner.intern type i').2 ∧
    request.Returns i (Interner.intern type i').1 := by
  cases wants with
  | intern => exact ⟨i, plain, rfl, .intern type⟩
  | primitive p => exact ⟨i, plain, rfl, .primitive p⟩
  | group name => exact ⟨i, plain, rfl, .group name⟩
  | @list element single valued =>
      have run : (Interner.list element).run i =
          (.ok (Interner.intern (.list element) i).1, (Interner.intern (.list element) i).2) := by
        unfold Interner.list
        rw [FieldType.listOf_eq_ok_iff.mpr ⟨rfl, single, valued⟩]
        rfl
      exact ⟨i, plain, congrArg Prod.snd run, .list (congrArg Prod.fst run)⟩
  | @read text _ spells =>
      obtain ⟨i', plain', run⟩ :=
        FieldType.internChars_last plain (FieldType.parse_eq_ok_iff.mpr spells)
      exact ⟨i', plain', congrArg Prod.snd run, .read (congrArg Prod.fst run)⟩

/-- A request is answered exactly when it is for a type. -/
theorem exists_returns_iff (plain : i.Plain) :
    (∃ a, request.Returns i a) ↔ ∃ type, request.Wants type := by
  constructor
  · rintro ⟨a, returns⟩
    exact returns.exists_wants plain
  · rintro ⟨type, wants⟩
    obtain ⟨i', -, -, returns⟩ := wants.last plain
    exact ⟨_, returns⟩

/-- The answer is held ever after, and is the type that was asked for. -/
theorem Wants.holds (wants : request.Wants type) (plain : i.Plain) {a : Interned}
    (returns : request.Returns i a) : (request.after i).Holds a ∧ a.type = type.detach := by
  obtain ⟨i', plain', after, last⟩ := wants.last plain
  rw [returns.unique last, after]
  exact ⟨holds_intern type plain', type_of_intern type plain'⟩

theorem Wants.unique {type' : FieldType} (h : request.Wants type) (h' : request.Wants type') :
    type = type' := by
  cases h with
  | intern | primitive | group | list =>
      cases h'
      rfl
  | read spells =>
      cases h' with
      | read spells' =>
          have denotes := FieldType.parse_eq_ok_iff.mpr spells
          exact Except.ok.inj (denotes.symm.trans (FieldType.parse_eq_ok_iff.mpr spells'))

theorem interns_iff_wants (noText : ∀ text, request ≠ .read text) :
    request.Interns type ↔ request.Wants type := by
  constructor
  · rintro (wants | @⟨text⟩)
    · exact wants
    · exact absurd rfl (noText text)
  · exact .wanted

theorem interns_read_iff {text : String} : (Request.read text).Interns type ↔
    ∃ part, ReflTransGen FieldType.Encloses text.toList part ∧ FieldType.Spells part type := by
  constructor
  · rintro (wants | ⟨inside, spells⟩)
    · cases wants with
      | read spells => exact ⟨_, .refl, spells⟩
    · exact ⟨_, inside.to_reflTransGen, spells⟩
  · rintro ⟨part, inside, spells⟩
    rcases Relation.reflTransGen_iff_eq_or_transGen.mp inside with rfl | inside
    · exact .wanted (.read spells)
    · exact .inside inside spells

theorem Wants.internAll_single (wants : request.Wants type) (noText : ∀ text, request ≠ .read text)
    (after : ∀ i, request.after i = (Interner.intern type i).2) : ∃ types : List FieldType,
      (∀ t, t ∈ types ↔ request.Interns t) ∧
        ∀ i : Interner, i.Plain → request.after i = i.internAll types := by
  refine ⟨[type], ?_, fun i _ => after i⟩
  intro t
  rw [interns_iff_wants noText, List.mem_singleton]
  constructor
  · rintro rfl
    exact wants
  · exact fun wants' => wants'.unique wants

/-- **A request interns one type after the other**, whatever was interned before. -/
theorem exists_internAll (single : request.Single) : ∃ types : List FieldType,
    (∀ type, type ∈ types ↔ request.Interns type) ∧
      ∀ i : Interner, i.Plain → request.after i = i.internAll types := by
  cases request with
  | intern type => exact (Wants.intern type).internAll_single (by simp) fun _ => rfl
  | primitive p => exact (Wants.primitive p).internAll_single (by simp) fun _ => rfl
  | group name => exact (Wants.group name).internAll_single (by simp) fun _ => rfl
  | list element =>
      refine ⟨element.listOf.toOption.toList, ?_, ?_⟩
      · intro t
        rw [interns_iff_wants (by simp), Option.mem_toList, toOption_eq_some_iff,
          FieldType.listOf_eq_ok_iff]
        constructor
        · rintro ⟨rfl, single, valued⟩
          exact .list single valued
        · intro wants
          cases wants with
          | list single valued => exact ⟨rfl, single, valued⟩
      · intro i _
        show ((Interner.list element).run i).2 = _
        unfold Interner.list
        cases element.listOf <;> rfl
  | read text =>
      refine ⟨FieldType.interned text.toList, ?_, ?_⟩
      · intro t
        rw [FieldType.mem_interned, interns_read_iff]
      · intro i plain
        exact FieldType.internChars_interned text.toList plain
  | build mode d => exact absurd rfl (single mode d)

end Request

theorem afterAll_append (requests requests' : List Request) :
    afterAll (requests ++ requests') = requests'.foldl Request.after (afterAll requests) :=
  List.foldl_append

/-- **A history of requests lists the types that they interned.** -/
theorem exists_lists (single : ∀ request ∈ requests, request.Single) : ∃ types : List FieldType,
    (∀ type, type ∈ types ↔ ∃ request ∈ requests, request.Interns type) ∧
      (afterAll requests).Lists types := by
  suffices all : ∃ types : List FieldType,
      (∀ type, type ∈ types ↔ ∃ request ∈ requests, request.Interns type) ∧
        afterAll requests = internAll {} types by
    obtain ⟨types, interned, after⟩ := all
    exact ⟨types, interned, after ▸ lists_internAll types⟩
  induction requests using List.reverseRecOn with
  | nil => exact ⟨[], by simp, rfl⟩
  | append_singleton requests request ih =>
      obtain ⟨before, last⟩ := List.forall_mem_append.mp single
      obtain ⟨types, interned, after⟩ := ih before
      obtain ⟨types', interned', after'⟩ :=
        Request.exists_internAll (last request (List.mem_singleton_self request))
      refine ⟨types ++ types', ?_, ?_⟩
      · intro type
        simp [interned, interned', or_and_right, exists_or]
      · rw [afterAll_append, internAll_append, ← after]
        exact after' _ (plain_afterAll requests)

/-- One of the requests was for the type, and it was answered with the entry. -/
def Returned (requests : List Request) (type : FieldType) (a : Interned) : Prop :=
  ∃ before request rest, requests = before ++ request :: rest ∧ request.Wants type ∧
    request.Returns (afterAll before) a

/-- What was returned is held, and still is after more requests. -/
theorem Returned.holds {type : FieldType} {a : Interned} (h : Returned requests type a)
    (later : List Request) : (afterAll (requests ++ later)).Holds a ∧ a.type = type.detach := by
  obtain ⟨before, request, rest, rfl, wants, returns⟩ := h
  have plain := plain_afterAll before
  obtain ⟨holds, same⟩ := wants.holds plain returns
  have grown := (foldl_after (rest ++ later) (plain_after plain request)).2
  rw [List.append_assoc, afterAll_append]
  exact ⟨holds.grown grown, same⟩

/-- One entry for each type. -/
structure Canonical (requests : List Request) : Prop where
  /-- a next request is answered exactly when it is for a type -/
  answered : ∀ request : Request,
    (∃ a, request.Returns (afterAll requests) a) ↔ ∃ type, request.Wants type
  /-- the answer is the type that was asked for -/
  same : ∀ type a, Returned requests type a → a.type.same type = true
  /-- two answers are one entry exactly when the types that were asked for are the same -/
  shared : ∀ type a type' a', Returned requests type a → Returned requests type' a' →
    (a.index = a'.index ↔ type.same type' = true)
  /-- an entry that was returned stays where and what it is -/
  kept : ∀ type a, Returned requests type a → ∀ later,
    (afterAll (requests ++ later)).entries[a.index]? = some a.type
  /-- no entry is bound to a table -/
  named : ∀ type ∈ (afterAll requests).entries, ∀ table, ¬ type.BoundTo table
  /-- there are as many entries as types that were interned, the same ones counted once -/
  counted : (∀ request ∈ requests, request.Single) →
    (Quotient.mk FieldType.sameness '' {type | ∃ request ∈ requests, request.Interns type}).encard =
      (afterAll requests).size

/-- **Interning is canonical**, whatever is asked for one after the other, in whatever way. -/
theorem canonical_afterAll (requests : List Request) : Canonical requests where
  answered _ := Request.exists_returns_iff (plain_afterAll requests)
  same type a returned := by
    rw [FieldType.same_iff, (returned.holds []).2, FieldType.detach_detach]
  shared type a type' a' returned returned' := by
    obtain ⟨holds, same⟩ := returned.holds []
    obtain ⟨holds', same'⟩ := returned'.holds []
    rw [FieldType.same_iff, ← same, ← same']
    constructor
    · intro index
      exact Option.some.inj (holds.entry.symm.trans (index ▸ holds'.entry))
    · intro type
      exact Option.some.inj (holds.found.symm.trans (type ▸ holds'.found))
  kept type a returned later := (returned.holds later).1.entry
  named type mem table := FieldType.not_boundTo_of_detach (plain_afterAll requests type mem)
  counted single := by
    obtain ⟨types, interned, lists⟩ := exists_lists single
    rw [← lists.encard]
    simp only [interned]

end Interner

namespace Household

/-- A list of addresses is one entry, whether its text is read or the table is at hand. The refused
list of lists leaves bytes and the list of bytes behind. -/
theorem canonical_addresses :
    let requests : List Interner.Request :=
      [.read " list< Address >", .read "list<list<byte>>", .list (.bound nextAddress)]
    ∃ a b, Interner.Returned requests (.list (.unbound "Address")) a ∧
      Interner.Returned requests (.list (.bound nextAddress)) b ∧ a.index = b.index ∧
      (Quotient.mk FieldType.sameness ''
        {type | ∃ request ∈ requests, request.Interns type}).encard = 4 := by
  intro requests
  have wants : (Interner.Request.read " list< Address >").Wants (.list (.unbound "Address")) :=
    .read (FieldType.parse_eq_ok_iff.mp (by cbv))
  have wants' : (Interner.Request.list (.bound nextAddress)).Wants (.list (.bound nextAddress)) :=
    .list rfl rfl
  obtain ⟨a, returns⟩ := ((Interner.canonical_afterAll []).answered _).mpr ⟨_, wants⟩
  obtain ⟨b, returns'⟩ :=
    ((Interner.canonical_afterAll (requests.take 2)).answered _).mpr ⟨_, wants'⟩
  have first : Interner.Returned requests _ a := ⟨[], _, _, rfl, wants, returns⟩
  have last : Interner.Returned requests _ b := ⟨requests.take 2, _, [], rfl, wants', returns'⟩
  have canonical := Interner.canonical_afterAll requests
  refine ⟨a, b, first, last, (canonical.shared _ a _ b first last).mpr (by decide), ?_⟩
  have size : (Interner.afterAll requests).size = 4 := by cbv
  rw [canonical.counted (by simp [requests, Interner.Request.Single]), size]
  rfl

end Household

end RecordFormat
