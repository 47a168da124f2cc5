import RecordFormat.Schema.Error
import RecordFormat.Text.Blank

/-!
# Constraints of a field

Presence, sort order and three plain flags. Lists of constraint names are read as sets: the
order does not matter, and neither do case and surrounding blanks.
-/

namespace RecordFormat

/-- Whether every record must hold the field. -/
inductive Presence where
  | required
  | optional
  deriving DecidableEq, Repr

/-- The direction of a sort key. -/
inductive SortOrder where
  | ascending
  | descending
  deriving DecidableEq, Repr

/-- The constraints of a field. -/
structure Constraints where
  presence : Presence
  sort : Option SortOrder := none
  frequentlyUsed : Bool := false
  derived : Bool := false
  largeList : Bool := false
  deriving DecidableEq, Repr

namespace Constraints

def required : Constraints where presence := .required

def optional : Constraints where presence := .optional

/-- Computed from other fields, hence optional. -/
def computed : Constraints where
  presence := .optional
  derived := true

def isRequired (c : Constraints) : Bool := c.presence = .required

def isOptional (c : Constraints) : Bool := c.presence = .optional

def isSortKey (c : Constraints) : Bool := c.sort.isSome

/-- The names of the constraints that hold, presence first. -/
def names (c : Constraints) : List String :=
  (match c.presence with
    | .required => ["required"]
    | .optional => ["optional"]) ++
  (match c.sort with
    | some .ascending => ["asc_sorted"]
    | some .descending => ["des_sorted"]
    | none => []) ++
  (if c.frequentlyUsed then ["frequently_used"] else []) ++
  (if c.derived then ["derived"] else []) ++
  (if c.largeList then ["large_list"] else [])

/-- What a list of names has said so far. -/
structure Reading where
  presence : Option Presence := none
  sort : Option SortOrder := none
  frequentlyUsed : Bool := false
  derived : Bool := false
  largeList : Bool := false
  deriving DecidableEq, Repr

namespace Reading

/-- Notes a presence; there may be only one. -/
def setPresence (r : Reading) (p : Presence) : Except ModelError Reading :=
  if r.presence.isSome then .error (.conflictingConstraints .presenceTwice)
  else .ok { r with presence := some p }

/-- Notes a sort order; there may be only one. -/
def setSort (r : Reading) (o : SortOrder) : Except ModelError Reading :=
  if r.sort.isSome then .error (.conflictingConstraints .sortTwice)
  else .ok { r with sort := some o }

/-- Reads one more name. -/
def read (r : Reading) (name : String) : Except ModelError Reading :=
  let key := Text.lowerAscii (Text.trim name)
  if key = "required" then r.setPresence .required
  else if key = "optional" then r.setPresence .optional
  else if key = "asc_sorted" then r.setSort .ascending
  else if key = "des_sorted" then r.setSort .descending
  else if key = "frequently_used" then .ok { r with frequentlyUsed := true }
  else if key = "derived" then .ok { r with derived := true }
  else if key = "large_list" then .ok { r with largeList := true }
  else .error (.unknownConstraint name)

/-- The constraints that were read. Without a presence, only a derived field is optional. -/
def finish (r : Reading) : Except ModelError Constraints :=
  match r.presence, r.derived with
  | some p, _ => .ok ⟨p, r.sort, r.frequentlyUsed, r.derived, r.largeList⟩
  | none, true => .ok ⟨.optional, r.sort, r.frequentlyUsed, true, r.largeList⟩
  | none, false => .error (.conflictingConstraints .presenceMissing)

end Reading

/-- Reads a list of constraint names. -/
def ofNames (names : List String) : Except ModelError Constraints := do
  (← names.foldlM Reading.read {}).finish

end Constraints

end RecordFormat
