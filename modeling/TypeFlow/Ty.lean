import TypeFlow.Text.Blank

/-!
Types: which kinds a value may have, a number or a string or either, and whether computing it
may fault. The empty type belongs to a name about which nothing is known yet.

A type is written as the names of its flags joined by a bar, and is read back without regard
to ASCII case or to blanks around the names.
-/

namespace TypeFlow

inductive Kind
  | number
  | string
deriving DecidableEq

structure Ty where
  hasNumber : Bool
  hasString : Bool
  hasError : Bool
deriving DecidableEq

namespace Ty

def unassigned : Ty := ⟨false, false, false⟩
def number : Ty := ⟨true, false, false⟩
def string : Ty := ⟨false, true, false⟩
def error : Ty := ⟨false, false, true⟩

instance : Inhabited Ty := ⟨unassigned⟩

instance : Union Ty where
  union a b := ⟨a.hasNumber || b.hasNumber, a.hasString || b.hasString, a.hasError || b.hasError⟩

instance : Inter Ty where
  inter a b := ⟨a.hasNumber && b.hasNumber, a.hasString && b.hasString, a.hasError && b.hasError⟩

instance : HasSubset Ty where
  Subset a b := a ∩ b = a

instance (a b : Ty) : Decidable (a ⊆ b) := inferInstanceAs (Decidable (a ∩ b = a))

def meets (a b : Ty) : Bool := a ∩ b ≠ unassigned

def withoutError (t : Ty) : Ty := { t with hasError := false }

/-- The type of a stored value. Only a value that did not fault is stored, so the fault flag
is dropped, unless it is all there is. -/
def masked (t : Ty) : Ty := if t.withoutError = unassigned then t else t.withoutError

/-- The kinds a value of this type may have, numbers first. -/
def kinds (t : Ty) : List Kind :=
  (if t.hasNumber then [.number] else []) ++ (if t.hasString then [.string] else [])

/-- The flags as a three-bit number, `1` for numbers, `2` for strings, `4` for faults. -/
def bits (t : Ty) : Nat := t.hasNumber.toNat + 2 * t.hasString.toNat + 4 * t.hasError.toNat

def ofBits? (n : Nat) : Option Ty :=
  if n < 8 then some ⟨n.testBit 0, n.testBit 1, n.testBit 2⟩ else none

end Ty

def Kind.ty : Kind → Ty
  | .number => .number
  | .string => .string

/-! ### Text -/

/-- A part of a written type that is none of the four names. -/
structure UnknownTypeName where
  name : String
deriving DecidableEq

def UnknownTypeName.message (e : UnknownTypeName) : String := "unknown type name `" ++ e.name ++ "`"

namespace Ty

/-- The names of the flags that are set, in the order they are written. -/
def names (t : Ty) : List String :=
  (if t.hasNumber then ["number"] else []) ++ (if t.hasString then ["string"] else []) ++
    (if t.hasError then ["error"] else [])

def text (t : Ty) : String :=
  if t = unassigned then "unassigned" else "|".intercalate t.names

def ofName? (name : String) : Option Ty :=
  match name with
  | "unassigned" => some unassigned
  | "number" => some number
  | "string" => some string
  | "error" => some error
  | _ => none

def readPart (part : List Char) : Except UnknownTypeName Ty :=
  match ofName? (String.ofList ((Text.trim part).map Char.toLower)) with
  | some t => .ok t
  | none => .error ⟨String.ofList (Text.trim part)⟩

/-- The union of the parts between the bars. The first part that is no name is the error. -/
def read (s : String) : Except UnknownTypeName Ty :=
  (s.toList.splitOn '|').foldlM (fun t part => (t ∪ ·) <$> readPart part) unassigned

end Ty

end TypeFlow
