import RecordFormat.Proofs.Schema.Tables
import RecordFormat.Proofs.Steps
import RecordFormat.Schema.Interner

/-!
# What a type text denotes

`FieldType.parse` reads a type text without an interner. Whatever an interner has seen before,
reading a text through it gives that type or that failure (`FieldType.internChars_alike`) and interns
what it returns (`FieldType.internChars_ends`). The text of a type that was read is read as that type
again (`FieldType.parse_text`).
-/

namespace RecordFormat

open Outcome
open Steps (Ends)

/-! ## Interners -/

namespace Interner

/-- Entries hold groups by name. -/
def Plain (i : Interner) : Prop := ∀ t ∈ i.entries, t.detach = t

/-- Entries stay where they are. -/
def Extends (i i' : Interner) : Prop := i.entries <+: i'.entries

instance : Std.Refl Extends := ⟨fun _ => List.prefix_rfl⟩

instance : IsTrans Interner Extends := ⟨fun _ _ _ h h' => h.trans h'⟩

/-- The interners that come about by interning. -/
inductive Reachable : Interner → Prop
  | empty : Reachable {}
  | intern {i : Interner} (t : FieldType) : Reachable i → Reachable (Interner.intern t i).2

/-- What is found for a type is the type, with every group taken by name. -/
theorem entry_of_findIdx? {i : Interner} (plain : i.Plain) {t : FieldType} {index : Nat}
    (found : i.entries.findIdx? t.detach.same = some index) : i.entries[index]? = some t.detach := by
  obtain ⟨bound, same, -⟩ := List.findIdx?_eq_some_iff_getElem.mp found
  rw [FieldType.same_iff, FieldType.detach_detach, plain _ (List.getElem_mem bound)] at same
  rw [List.getElem?_eq_getElem bound, same]

theorem intern_of_some {i : Interner} (plain : i.Plain) {t : FieldType} {index : Nat}
    (found : i.entries.findIdx? t.detach.same = some index) :
    Interner.intern t i = (⟨index, t.detach⟩, i) := by
  dsimp only [Interner.intern]
  rw [found]
  show ((⟨index, i.entries.getD index t.detach⟩ : Interned), i) = (⟨index, t.detach⟩, i)
  rw [List.getD_eq_getElem?_getD, entry_of_findIdx? plain found]
  rfl

theorem intern_of_none {i : Interner} {t : FieldType}
    (found : i.entries.findIdx? t.detach.same = none) :
    Interner.intern t i = (⟨i.size, t.detach⟩, ⟨i.entries ++ [t.detach]⟩) := by
  dsimp only [Interner.intern]
  rw [found]

/-- **A type is interned as itself**, with every group taken by name. -/
theorem type_of_intern (t : FieldType) {i : Interner} (plain : i.Plain) :
    (Interner.intern t i).1.type = t.detach := by
  cases found : i.entries.findIdx? t.detach.same with
  | some index => rw [intern_of_some plain found]
  | none => rw [intern_of_none found]

theorem extends_intern (t : FieldType) (i : Interner) : i.Extends (Interner.intern t i).2 := by
  dsimp only [Interner.intern]
  cases i.entries.findIdx? t.detach.same with
  | some index => exact List.prefix_rfl
  | none => exact List.prefix_append _ _

theorem plain_intern (t : FieldType) {i : Interner} (plain : i.Plain) :
    (Interner.intern t i).2.Plain := by
  dsimp only [Interner.intern]
  cases i.entries.findIdx? t.detach.same with
  | some index => exact plain
  | none =>
      intro u hu
      rcases List.mem_append.mp hu with hu | hu
      · exact plain u hu
      · rw [List.mem_singleton.mp hu]
        exact FieldType.detach_detach t

/-- The entry is the one that its type is interned as. -/
structure Holds (i : Interner) (a : Interned) : Prop where
  found : i.entries.findIdx? a.type.same = some a.index
  entry : i.entries[a.index]? = some a.type

theorem Holds.detach {i : Interner} {a : Interned} (h : i.Holds a) (plain : i.Plain) :
    a.type.detach = a.type :=
  plain _ (List.mem_of_getElem? h.entry)

/-- An entry is held for good. -/
theorem Holds.grown {i i' : Interner} {a : Interned} (h : i.Holds a) (grown : i.Extends i') :
    i'.Holds a := by
  obtain ⟨fresh, eq⟩ := grown
  obtain ⟨bound, -⟩ := List.getElem?_eq_some_iff.mp h.entry
  constructor
  · rw [← eq, List.findIdx?_append, h.found]
    rfl
  · rw [← eq, List.getElem?_append_left bound, h.entry]

/-- A type that is held is not interned again. -/
theorem Holds.intern_eq {i : Interner} {a : Interned} (h : i.Holds a) (plain : i.Plain) :
    Interner.intern a.type i = (a, i) := by
  have detach := h.detach plain
  rw [intern_of_some plain (detach.symm ▸ h.found), detach]

/-- **What is interned is held.** -/
theorem holds_intern (t : FieldType) {i : Interner} (plain : i.Plain) :
    (Interner.intern t i).2.Holds (Interner.intern t i).1 := by
  cases found : i.entries.findIdx? t.detach.same with
  | some index =>
      rw [intern_of_some plain found]
      exact ⟨found, entry_of_findIdx? plain found⟩
  | none =>
      rw [intern_of_none found]
      constructor
      · have same : t.detach.same t.detach = true := FieldType.same_iff.mpr rfl
        show (i.entries ++ [t.detach]).findIdx? t.detach.same = some i.entries.length
        rw [List.findIdx?_append, found]
        simp [List.findIdx?_cons, same]
      · exact List.getElem?_concat_length

/-- The entry is held, and that of a list together with one for the elements. -/
structure Knows (i : Interner) (a : Interned) : Prop extends Holds i a where
  element : ∀ t, a.type = .list t → ∃ b, i.Holds b ∧ b.type = t

theorem Knows.grown {i i' : Interner} {a : Interned} (h : i.Knows a) (grown : i.Extends i') :
    i'.Knows a where
  toHolds := h.toHolds.grown grown
  element := by
    intro t list
    obtain ⟨b, holds, type⟩ := h.element t list
    exact ⟨b, holds.grown grown, type⟩

/-- An entry for something else than a list needs nothing besides. -/
theorem Holds.knows {i : Interner} {a : Interned} (h : i.Holds a) (single : a.type.isList = false) :
    i.Knows a where
  toHolds := h
  element := by
    intro t list
    rw [list] at single
    cases single

theorem intern_ends (t : FieldType) {i : Interner} (plain : i.Plain) :
    Ends Extends Plain (fun a s => a.type = t.detach ∧ s.Holds a)
      (liftM (Interner.intern t) : ExceptT ModelError (StateM Interner) Interned) i :=
  Ends.lift (plain_intern t plain) (extends_intern t i)
    ⟨type_of_intern t plain, holds_intern t plain⟩

theorem Reachable.plain {i : Interner} (h : Reachable i) : i.Plain := by
  induction h with
  | empty => exact nofun
  | intern t _ ih => exact plain_intern t ih

end Interner

/-! ## Reading -/

namespace FieldType

/-- The type that the characters of a type text denote, groups by name. -/
def parse (cs : List Char) : Except ModelError FieldType :=
  let trimmed := Text.trimBlanks cs
  match _h : listElement? trimmed with
  | some inner => parse inner >>= listOf
  | none =>
    let name := String.ofList trimmed
    match Primitive.ofName? name with
    | some p => .ok (.primitive p)
    | none => if isGroupName name then .ok (.unbound name) else .error (.unknownType name)
termination_by cs.length
decreasing_by
  exact Nat.lt_of_lt_of_le (length_of_listElement? _h) (Text.length_trimBlanks_le cs)

/-- What a list can be made of. -/
theorem eq_of_listOf {element type : FieldType} (h : element.listOf = .ok type) :
    type = .list element ∧ element.isList = false ∧ element.isSentinel = false := by
  unfold listOf at h
  split at h
  · cases h
  · next allowed =>
    cases h
    simpa using allowed

variable {cs inner : List Char}

theorem parse_of_some (found : listElement? (Text.trimBlanks cs) = some inner) :
    parse cs = parse inner >>= listOf := by
  rw [parse]
  split
  · next other found' =>
    obtain rfl : inner = other := Option.some.inj (found.symm.trans found')
    rfl
  · next absent => cases found.symm.trans absent

theorem parse_of_none (found : listElement? (Text.trimBlanks cs) = none) :
    parse cs = match Primitive.ofName? (String.ofList (Text.trimBlanks cs)) with
      | some p => .ok (.primitive p)
      | none =>
        if isGroupName (String.ofList (Text.trimBlanks cs)) then
          .ok (.unbound (String.ofList (Text.trimBlanks cs)))
        else .error (.unknownType (String.ofList (Text.trimBlanks cs))) := by
  rw [parse]
  split
  · next found' => cases found.symm.trans found'
  · rfl

/-- What is inside a type text is shorter. -/
theorem length_of_inner (found : listElement? (Text.trimBlanks cs) = some inner) :
    inner.length < cs.length :=
  Nat.lt_of_lt_of_le (length_of_listElement? found) (Text.length_trimBlanks_le cs)

theorem detach_of_parse (cs : List Char) {t : FieldType} (h : parse cs = .ok t) : t.detach = t := by
  cases found : listElement? (Text.trimBlanks cs) with
  | some inner =>
      have shorter := length_of_inner found
      rw [parse_of_some found] at h
      obtain ⟨element, read, made⟩ := bind_eq_ok_iff.mp h
      rw [(eq_of_listOf made).1, detach, detach_of_parse inner read]
  | none =>
      rw [parse_of_none found] at h
      split at h
      · cases h
        rfl
      · split at h
        · cases h
          rfl
        · cases h
termination_by cs.length

/-- What is read is known afterwards. -/
theorem internChars_ends (cs : List Char) {i : Interner} (plain : i.Plain) :
    Ends Interner.Extends Interner.Plain (fun a s => s.Knows a) (internChars cs) i := by
  have single : ∀ (t : FieldType) (a : Interned) (s : Interner), t.detach.isList = false →
      a.type = t.detach ∧ s.Holds a → s.Knows a := by
    rintro t a s single ⟨type, holds⟩
    exact holds.knows (type ▸ single)
  rw [internChars]
  split
  · next inner found =>
    have shorter := length_of_inner found
    apply (internChars_ends inner plain).bind
    intro a s plain _ known
    unfold Interner.list
    cases made : a.type.listOf with
    | error e => exact Ends.throw plain
    | ok type =>
        refine (Interner.intern_ends type plain).imp ?_
        rintro b s' _ grown ⟨same, holds⟩
        refine ⟨holds, ?_⟩
        intro t list
        rw [same, (eq_of_listOf made).1, detach, known.detach plain, FieldType.list.injEq] at list
        exact ⟨a, known.toHolds.grown grown, list⟩
  · dsimp only
    split
    · exact (Interner.intern_ends _ plain).imp fun a s _ _ => single (.primitive _) a s rfl
    · split
      · exact (Interner.intern_ends _ plain).imp fun a s _ _ => single (.unbound _) a s rfl
      · exact Ends.throw plain
termination_by cs.length

/-- **A type text is read as the type that it denotes**, whatever was interned before. -/
theorem internChars_alike (cs : List Char) {i : Interner} (plain : i.Plain) :
    Alike (fun a t => a.type = t) ((internChars cs).run i).1 (parse cs) := by
  rw [internChars]
  split
  · next inner found =>
    have shorter := length_of_inner found
    have read := internChars_alike inner plain
    have plain' := (internChars_ends inner plain).keeps
    rw [Steps.run_bind, parse_of_some found]
    generalize (internChars inner).run i = result at read plain'
    generalize denoted : parse inner = y at read
    obtain ⟨outcome, s⟩ := result
    cases read with
    | error e => exact .error e
    | @ok a t same =>
        subst same
        show Alike _ ((Interner.list a.type).run s).1 a.type.listOf
        unfold Interner.list
        cases made : a.type.listOf with
        | error e => exact .error e
        | ok type =>
            -- The element is named already, so the list is interned as it is.
            have named : type.detach = type := by
              rw [(eq_of_listOf made).1, detach, detach_of_parse inner denoted]
            exact .ok ((Interner.type_of_intern type plain').trans named)
  · next found =>
    rw [parse_of_none found]
    dsimp only
    cases Primitive.ofName? (String.ofList (Text.trimBlanks cs)) with
    | some p => exact .ok (Interner.type_of_intern (.primitive p) plain)
    | none =>
        cases isGroupName (String.ofList (Text.trimBlanks cs)) with
        | true => exact .ok (Interner.type_of_intern (.unbound _) plain)
        | false => exact .error _
termination_by cs.length

theorem ofText_alike (text : String) {i : Interner} (plain : i.Plain) :
    Alike (fun a t => a.type = t) ((ofText text).run i).1 (parse text.toList) :=
  internChars_alike text.toList plain

/-- A type text is read alike through any two interners. -/
theorem ofText_same (text : String) {i i' : Interner} (plain : i.Plain) (plain' : i'.Plain) :
    Alike (fun a b => a.type = b.type) ((ofText text).run i).1 ((ofText text).run i').1 :=
  (ofText_alike text plain).of_common (ofText_alike text plain') fun _ _ _ same same' =>
    same.trans same'.symm

/-- Reading a type text. -/
theorem ofText_ends (text : String) {i : Interner} (plain : i.Plain) :
    Ends Interner.Extends Interner.Plain (fun a _ => parse text.toList = .ok a.type)
      (ofText text) i where
  keeps := (internChars_ends _ plain).keeps
  after := (internChars_ends _ plain).after
  returns := by
    intro a read
    have alike := ofText_alike text plain
    rw [read] at alike
    obtain ⟨t, denoted, rfl⟩ := alike.ok_left
    exact denoted

end FieldType

/-! ## Writing -/

namespace Text

theorem trimBlanks_eq_self {cs : List Char} (first : ∀ c ∈ cs.head?, isBlank c = false)
    (last : ∀ c ∈ cs.getLast?, isBlank c = false) : trimBlanks cs = cs :=
  strips_iff.mp ⟨[], [], by simp, by simp, first, last⟩

/-- Characters of names are not blank. -/
theorem isBlank_of_isNameTail {c : Char} (h : isNameTail c = true) : isBlank c = false := by
  have ascii : 0x30 ≤ c.toNat ∧ c.toNat ≤ 0x7A := by
    rw [isNameTail, Bool.or_eq_true, beq_iff_eq] at h
    rcases h with h | rfl
    · rcases Bool.or_eq_true_iff.mp h with letter | digit
      · rcases Bool.or_eq_true_iff.mp letter with upper | lower
        · have range : 'A'.val ≤ c.val ∧ c.val ≤ 'Z'.val := of_decide_eq_true upper
          exact ⟨Nat.le_trans (by decide) range.1, Nat.le_trans range.2 (by decide)⟩
        · have range : 'a'.val ≤ c.val ∧ c.val ≤ 'z'.val :=
            (Bool.and_eq_true_iff.mp lower).imp of_decide_eq_true of_decide_eq_true
          exact ⟨Nat.le_trans (by decide) range.1, Nat.le_trans range.2 (by decide)⟩
      · have range : '0'.val ≤ c.val ∧ c.val ≤ '9'.val :=
          (Bool.and_eq_true_iff.mp digit).imp of_decide_eq_true of_decide_eq_true
        exact ⟨Nat.le_trans (by decide) range.1, Nat.le_trans range.2 (by decide)⟩
    · decide
  simp only [isBlank, Bool.or_eq_false_iff, Bool.and_eq_false_iff, decide_eq_false_iff_not,
    beq_eq_false_iff_ne]
  omega

theorem isNameTail_of_isTableName {name : String} (h : isTableName name = true) :
    ∀ c ∈ name.toList, isNameTail c = true := by
  unfold isTableName isNameFrom at h
  split at h
  · cases h
  · next c rest eq =>
    rw [Bool.and_eq_true, List.all_eq_true] at h
    rw [eq]
    refine List.forall_mem_cons.mpr ⟨?_, h.2⟩
    simp [isNameTail, Char.isAlphanum, h.1]

theorem isNameTail_of_primitive {p : Primitive} (mem : p ∈ Primitive.all) :
    ∀ c ∈ p.name.toList, isNameTail c = true := by
  have named : ∀ p ∈ Primitive.all, p.name.toList.all isNameTail = true := by decide
  exact List.all_eq_true.mp (named p mem)

theorem trimBlanks_name {cs : List Char} (named : ∀ c ∈ cs, isNameTail c = true) :
    trimBlanks cs = cs :=
  trimBlanks_eq_self (fun c hc => isBlank_of_isNameTail (named c (List.mem_of_mem_head? hc)))
    fun c hc => isBlank_of_isNameTail (named c (List.mem_of_mem_getLast? hc))

end Text

namespace FieldType

theorem listElement?_name {cs : List Char} (named : ∀ c ∈ cs, Text.isNameTail c = true) :
    listElement? cs = none := by
  unfold listElement?
  split
  · have angle := named '<' (by simp)
    exact absurd angle (by decide)
  · rfl

theorem chars_text_list (element : FieldType) : (list element).text.toList =
    'l' :: 'i' :: 's' :: 't' :: '<' :: element.text.toList ++ ['>'] := by
  simp [text, listName]

theorem listElement?_text (element : FieldType) :
    listElement? (list element).text.toList = some element.text.toList := by
  simp [chars_text_list, listElement?]

/-- A name is read as a primitive of that name, or else as a group. -/
theorem parse_name {name : String} (named : ∀ c ∈ name.toList, Text.isNameTail c = true) :
    parse name.toList = match Primitive.ofName? name with
      | some p => .ok (.primitive p)
      | none => if isGroupName name then .ok (.unbound name) else .error (.unknownType name) := by
  have trimmed := Text.trimBlanks_name named
  rw [parse_of_none (trimmed.symm ▸ listElement?_name named), trimmed, String.ofList_toList]

/-- **The text of a type that was read is read as that type.** -/
theorem parse_text (cs : List Char) {t : FieldType} (h : parse cs = .ok t) :
    parse t.text.toList = .ok t := by
  cases found : listElement? (Text.trimBlanks cs) with
  | some inner =>
      have shorter := length_of_inner found
      rw [parse_of_some found] at h
      obtain ⟨element, read, made⟩ := bind_eq_ok_iff.mp h
      obtain ⟨rfl, -⟩ := eq_of_listOf made
      have trimmed : Text.trimBlanks (list element).text.toList = (list element).text.toList := by
        rw [chars_text_list]
        apply Text.trimBlanks_eq_self
        · rintro c ⟨⟩
          decide
        · rw [List.getLast?_concat]
          rintro c ⟨⟩
          decide
      rw [parse_of_some (trimmed ▸ listElement?_text element), parse_text inner read]
      exact made
  | none =>
      rw [parse_of_none found] at h
      generalize String.ofList (Text.trimBlanks cs) = name at h
      cases known : Primitive.ofName? name with
      | some p =>
          rw [known] at h
          cases h
          have mem : p ∈ Primitive.all := List.mem_of_find?_eq_some known
          show parse p.name.toList = _
          rw [parse_name (Text.isNameTail_of_primitive mem), Primitive.ofName?_name mem]
      | none =>
          rw [known] at h
          dsimp only at h
          split at h
          · next group =>
            cases h
            have named : Text.isTableName name = true := by
              simp only [isGroupName, Bool.and_eq_true] at group
              exact group.1.1
            show parse name.toList = _
            rw [parse_name (Text.isNameTail_of_isTableName named), known]
            exact if_pos group
          · cases h
termination_by cs.length

end FieldType

end RecordFormat
