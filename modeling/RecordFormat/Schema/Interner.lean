import RecordFormat.Schema.Basic
import RecordFormat.Text.Name

/-!
# Interning types, and type texts

An interner numbers types by first appearance, one entry for all types that are the same.
Entries hold groups by name. Reading a type text interns the type it denotes, its element
first.
-/

namespace RecordFormat

/-- The types seen so far, in order of appearance. -/
structure Interner where
  entries : List FieldType := []

/-- An interned type: its entry's position and the entry. -/
structure Interned where
  index : Nat
  type : FieldType

namespace Interner

def size (i : Interner) : Nat := i.entries.length

def isEmpty (i : Interner) : Bool := i.entries.isEmpty

/-- The entry of a type, made if there is none. -/
def intern (type : FieldType) : StateM Interner Interned := fun i =>
  let type := type.detach
  match i.entries.findIdx? type.same with
  | some index => (⟨index, i.entries.getD index type⟩, i)
  | none => (⟨i.size, type⟩, ⟨i.entries ++ [type]⟩)

/-- The entry of a primitive. -/
def primitive (p : Primitive) : StateM Interner Interned := intern (.primitive p)

/-- The entry of a group. -/
def group (name : String) : StateM Interner Interned := intern (.unbound name)

/-- The entry of a list; refused elements leave the interner as it is. -/
def list (element : FieldType) : ExceptT ModelError (StateM Interner) Interned :=
  match element.listOf with
  | .ok type => intern type
  | .error e => throw e

end Interner

namespace FieldType

/-- The text between `list<` and `>`, which need not belong together. -/
def listElement? (cs : List Char) : Option (List Char) :=
  match cs with
  | 'l' :: 'i' :: 's' :: 't' :: '<' :: rest =>
    match rest.reverse with
    | '>' :: inner => some inner.reverse
    | _ => none
  | _ => none

theorem length_of_listElement? {cs inner : List Char} (h : listElement? cs = some inner) :
    inner.length < cs.length := by
  unfold listElement? at h
  split at h
  · next rest =>
    split at h
    · next hr =>
      have := congrArg List.length hr
      simp at h this ⊢
      subst h
      simp
      omega
    · simp at h
  · simp at h

/-- Names that may stand for groups. The names of the sentinels may not. -/
def isGroupName (name : String) : Bool :=
  Text.isTableName name && name ≠ Primitive.null.name && name ≠ Primitive.unknown.name

/-- Reads the characters of a type text: a primitive's name, `list<element>`, or the name of
a table. Groups stay unbound. -/
def internChars (cs : List Char) : ExceptT ModelError (StateM Interner) Interned :=
  let trimmed := Text.trimBlanks cs
  match _h : listElement? trimmed with
  | some inner => do
    let element ← internChars inner
    Interner.list element.type
  | none =>
    let name := String.ofList trimmed
    match Primitive.ofName? name with
    | some p => Interner.primitive p
    | none => if isGroupName name then Interner.group name else throw (.unknownType name)
termination_by cs.length
decreasing_by
  exact Nat.lt_of_lt_of_le (length_of_listElement? _h) (Text.length_trimBlanks_le cs)

/-- Reads a type text. -/
def ofText (text : String) : ExceptT ModelError (StateM Interner) Interned :=
  internChars text.toList

end FieldType

end RecordFormat
