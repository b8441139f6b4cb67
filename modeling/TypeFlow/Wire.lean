import TypeFlow.Json.Depth
import TypeFlow.Json.Parser

/-!
Values that are written as JSON and read back.

A record is an object with one member per field; when it is read, the members may stand in any
order among others, or the fields may stand in an array in the order they are declared. A case
without contents is its name, and a case with contents is an object with that name as its only
key. What is read from a text is limited in depth; the members among the fields that are passed
over are not.
-/

namespace TypeFlow

class Wire (α : Type) where
  toJson : α → Json
  ofJson? : Json → Option α

namespace Wire

variable {α : Type} [Wire α]

def write (a : α) : String := (toJson a).render

/-- How many arrays and objects may stand inside one another in what is read from a text. -/
def maxDepth : Nat := 127

def read? (s : String) : Option α :=
  (Json.parse? s).bind fun j => ofJson? (j.truncate maxDepth)

end Wire

namespace Json

/-- No field is given twice. Members that are no fields may repeat. -/
def eachOnce (names : List String) (ms : List (String × Json)) : Bool :=
  names.all fun n => ms.countP (·.1 = n) ≤ 1

def fields? (names : List String) : Json → Option (List (Option Json))
  | .object ms => if eachOnce names ms then some (names.map fun n => ms.lookup n) else none
  | .array js =>
    if js.length ≤ names.length then
      some (js.map some ++ List.replicate (names.length - js.length) none)
    else none
  | _ => none

def record? (names : List String) (j : Json) : Option (List Json) :=
  (j.fields? names).bind fun fs => fs.mapM id

/-- The one of `all` that is called as `j` says. -/
def case? {α : Type} (all : List α) (name : α → String) : Json → Option α
  | .str s => all.find? fun a => name a = s
  | .object [(s, .null)] => all.find? fun a => name a = s
  | _ => none

def str? : Json → Option String
  | .str s => some s
  | _ => none

def array? : Json → Option (List Json)
  | .array js => some js
  | _ => none

/-- An integer from `lo` up to, and not including, `hi`. -/
def intIn? (lo hi : Int) : Json → Option Int
  | .int n => if lo ≤ n ∧ n < hi then some n else none
  | _ => none

end Json

instance : Wire String where
  toJson := .str
  ofJson? := Json.str?

instance : Wire UInt64 where
  toJson n := .int n.toNat
  ofJson? j := (j.intIn? 0 UInt64.size).map fun n => n.toNat.toUInt64

instance {α : Type} [Wire α] : Wire (List α) where
  toJson as := .array (as.map Wire.toJson)
  ofJson? j := j.array?.bind fun js => js.mapM Wire.ofJson?

instance {α : Type} [Wire α] : Wire (Option α) where
  toJson
    | some a => Wire.toJson a
    | none => .null
  ofJson?
    | .null => some none
    | j => (Wire.ofJson? j).map some

end TypeFlow
