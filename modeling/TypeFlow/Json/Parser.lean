import TypeFlow.Json.Scan

/-!
The value that tokens stand for, found in one walk with a stack of the arrays and objects that
are still open.
-/

namespace TypeFlow.Json

/-- The members of an open object so far, the last one first; `none` once a key is illegible. -/
abbrev Members := Option (List (String × Json))

/-- A place for a value: in an array after other items, or in an object under a key. Items and
members are held with the last one first. -/
inductive Slot
  | item (before : List Json)
  | member (before : Members) (key : Option String)

inductive Parse
  /-- A value comes next. -/
  | value (stack : List Slot)
  /-- An array has just been opened. -/
  | arrayStart (stack : List Slot)
  /-- An object has just been opened. -/
  | objectStart (stack : List Slot)
  /-- A further key comes next. -/
  | key (before : Members) (stack : List Slot)
  | colon (before : Members) (key : Option String) (stack : List Slot)
  /-- An item of an array is complete. -/
  | afterItem (items : List Json) (stack : List Slot)
  /-- A member of an object is complete. -/
  | afterMember (members : Members) (stack : List Slot)
  | done (j : Json)

def Parse.fill (j : Json) : List Slot → Parse
  | [] => .done j
  | .item before :: stack => .afterItem (j :: before) stack
  | .member before k :: stack =>
    .afterMember (do
      let ms ← before
      let k ← k
      pure ((k, j) :: ms)) stack

def Members.toJson : Members → Json
  | some ms => .object ms.reverse
  | none => .illegible

def Parse.begin (stack : List Slot) : Token → Option Parse
  | .openArray => some (.arrayStart stack)
  | .openObject => some (.objectStart stack)
  | .null => some (fill .null stack)
  | .bool b => some (fill (.bool b) stack)
  | .int n => some (fill (.int n) stack)
  | .real lexeme => some (fill (.real lexeme) stack)
  | .str s => some (fill (.str s) stack)
  | .illegible => some (fill .illegible stack)
  | .closeArray | .closeObject | .colon | .comma => none

def Parse.step : Parse → Token → Option Parse
  | .value stack, t => begin stack t
  | .arrayStart stack, .closeArray => some (fill (.array []) stack)
  | .arrayStart stack, t => begin (.item [] :: stack) t
  | .objectStart stack, .closeObject => some (fill (.object []) stack)
  | .objectStart stack, .str k => some (.colon (some []) (some k) stack)
  | .objectStart stack, .illegible => some (.colon (some []) none stack)
  | .key before stack, .str k => some (.colon before (some k) stack)
  | .key before stack, .illegible => some (.colon before none stack)
  | .colon before k stack, .colon => some (.value (.member before k :: stack))
  | .afterItem items stack, .comma => some (.value (.item items :: stack))
  | .afterItem items stack, .closeArray => some (fill (.array items.reverse) stack)
  | .afterMember ms stack, .comma => some (.key ms stack)
  | .afterMember ms stack, .closeObject => some (fill ms.toJson stack)
  | _, _ => none

def ofTokens? (ts : List Token) : Option Json :=
  match ts.foldlM Parse.step (.value []) with
  | some (.done j) => some j
  | _ => none

/-- The value of a text that holds one value and nothing else. -/
def parse? (s : String) : Option Json := (scan s.toList).bind ofTokens?

end TypeFlow.Json
