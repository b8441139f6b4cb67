import TypeFlow.Typing.Config
import TypeFlow.Wire.Syntax

/-!
Configurations as JSON, and configuration files. Every field of a configuration may be left
out.
-/

namespace TypeFlow

instance : Wire Hint where
  toJson h := .object [("name", .str h.name), ("type", Wire.toJson h.ty)]
  ofJson? j :=
    match j.record? ["name", "type"] with
    | some [x, ty] => do
      let x ← x.str?
      let ty ← Wire.ofJson? ty
      pure ⟨x, ty⟩
    | _ => none

/-- Reads a field that may be left out. -/
def Json.orElse {α : Type} [Wire α] (field : Option Json) (missing : α) : Option α :=
  match field with
  | some j => Wire.ofJson? j
  | none => some missing

instance : Wire Config where
  toJson c :=
    .object [("hints", Wire.toJson c.hints), ("default_type", Wire.toJson c.defaultTy),
      ("max_passes", Wire.toJson c.maxPasses)]
  ofJson? j :=
    match j.fields? ["hints", "default_type", "max_passes"] with
    | some [hints, defaultTy, maxPasses] => do
      let hints ← Json.orElse hints Config.default.hints
      let defaultTy ← Json.orElse defaultTy Config.default.defaultTy
      let maxPasses ← Json.orElse maxPasses Config.default.maxPasses
      pure ⟨hints, defaultTy, maxPasses⟩
    | _ => none

inductive ConfigError
  | malformed
  /-- The file is missing or is not a text. -/
  | unreadable (path : String)
  | malformedFile (path : String)
deriving DecidableEq

def ConfigError.message : ConfigError → String
  | malformed => "invalid flow typing configuration"
  | unreadable path => "failed to read configuration from " ++ path
  | malformedFile path => "in " ++ path

namespace Config

def parse (text : String) : Except ConfigError Config :=
  match Wire.read? text with
  | some c => .ok c
  | none => .error .malformed

/-- The configuration in the file at `path`, given what the file holds if it exists. -/
def ofFile (path : String) (contents : Option ByteArray) : Except ConfigError Config :=
  match contents.bind String.fromUTF8? with
  | none => .error (.unreadable path)
  | some text =>
    match parse text with
    | .ok c => .ok c
    | .error _ => .error (.malformedFile path)

end Config

end TypeFlow
