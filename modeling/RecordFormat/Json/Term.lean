import RecordFormat.Json.Number
import RecordFormat.Json.Token

/-!
# Reading JSON

Tokens are assembled into a `Term` by a machine with a stack of open arrays and objects, one
token at a time. A term still holds literals and string pieces; `Term.value?` decides which
terms are JSON values, so that a part nobody looks at is not checked further.
-/

namespace RecordFormat.Json

/-- A JSON text by its shape. Members keep their order, repeated keys too. -/
inductive Term where
  | null
  | bool (value : Bool)
  | number (literal : Literal)
  | string (pieces : List Piece)
  | array (items : List Term)
  | object (members : List (List Piece × Term))
  deriving Inhabited

/-- The term that a word is. -/
def Term.ofWord? (cs : List Char) : Option Term :=
  if cs = "null".toList then some .null
  else if cs = "true".toList then some (.bool true)
  else if cs = "false".toList then some (.bool false)
  else (Literal.ofChars? cs).map .number

/-- An open array or object; what it holds so far is in reverse. A `member` is an object
whose last key has no value yet. -/
inductive Frame where
  | array (items : List Term)
  | object (members : List (List Piece × Term))
  | member (members : List (List Piece × Term)) (key : List Piece)

/-- What may come next, given the open frames, innermost first. -/
inductive Assembly where
  | value (stack : List Frame)
  | valueOrEnd (items : List Frame)
  | key (stack : List Frame)
  | keyOrEnd (stack : List Frame)
  | colon (stack : List Frame)
  | separator (stack : List Frame)
  | complete (term : Term)

namespace Assembly

/-- A finished term goes into the innermost frame. -/
def place (term : Term) : List Frame → Option Assembly
  | [] => some (.complete term)
  | .array items :: stack => some (.separator (.array (term :: items) :: stack))
  | .member members name :: stack =>
    some (.separator (.object ((name, term) :: members) :: stack))
  | .object _ :: _ => none

/-- Takes a token where a value must start. -/
def startValue (stack : List Frame) : Token → Option Assembly
  | .word cs => do place (← Term.ofWord? cs) stack
  | .text pieces => place (.string pieces) stack
  | .openArray => some (.valueOrEnd (.array [] :: stack))
  | .openObject => some (.keyOrEnd (.object [] :: stack))
  | _ => none

/-- Takes a token where a key must start. -/
def startMember : List Frame → Token → Option Assembly
  | .object members :: stack, .text name => some (.colon (.member members name :: stack))
  | _, _ => none

/-- Closes the innermost frame, if the token is its closing bracket. -/
def close : List Frame → Token → Option Assembly
  | .array items :: stack, .closeArray => place (.array items.reverse) stack
  | .object members :: stack, .closeObject => place (.object members.reverse) stack
  | _, _ => none

/-- Takes one token. -/
def step : Assembly → Token → Option Assembly
  | .value stack, token => startValue stack token
  | .valueOrEnd stack, token =>
    if token = .closeArray then close stack token else startValue stack token
  | .key stack, token => startMember stack token
  | .keyOrEnd stack, token =>
    if token = .closeObject then close stack token else startMember stack token
  | .colon stack, .colon => some (.value stack)
  | .separator (.array items :: stack), .comma => some (.value (.array items :: stack))
  | .separator (.object members :: stack), .comma => some (.key (.object members :: stack))
  | .separator stack, token => close stack token
  | _, _ => none

end Assembly

/-- The term written by a text, which may have nothing else in it. -/
def Term.ofText? (text : String) : Option Term := do
  match ← (← tokens? text).foldlM Assembly.step (.value []) with
  | .complete term => some term
  | _ => none

/-- How deep arrays and objects may nest. -/
def depthLimit : Nat := 127

mutual

/-- The value of a term with room for `room` more levels. -/
def Term.value? (room : Nat) : Term → Option Json
  | .null => some .null
  | .bool b => some (.bool b)
  | .number literal => literal.value?
  | .string pieces => (string? pieces).map .string
  | .array items =>
    match room with
    | 0 => none
    | room + 1 => (itemValues? room items).map .array
  | .object members =>
    match room with
    | 0 => none
    | room + 1 => (memberValues? room members).map Json.ofMembers

def itemValues? (room : Nat) : List Term → Option (List Json)
  | [] => some []
  | t :: rest => do
    let v ← t.value? room
    let vs ← itemValues? room rest
    return v :: vs

def memberValues? (room : Nat) : List (List Piece × Term) → Option (List (String × Json))
  | [] => some []
  | (key, t) :: rest => do
    let k ← string? key
    let v ← t.value? room
    let vs ← memberValues? room rest
    return (k, v) :: vs

end

/-- The value written by a text. -/
def ofText? (text : String) : Option Json := do (← Term.ofText? text).value? depthLimit

end RecordFormat.Json
