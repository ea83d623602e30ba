import Sigil.Config
import Sigil.Toml.Document

namespace Sigil

/-- What is wrong with a configuration. -/
inductive ConfigError.Cause where
  | missingFile
  /-- The text is no document. -/
  | malformed
  | invalidType
  /-- A number that the setting cannot have. -/
  | invalidValue
  /-- A list with too few settings of a section. -/
  | invalidLength
  /-- A name that stands for nothing. -/
  | unknownName
deriving DecidableEq

/-- What is wrong, and the keys that lead to it. -/
structure ConfigError where
  cause : ConfigError.Cause
  path : List String := []
deriving DecidableEq

namespace ConfigError

/-- The error as seen from the table that holds the value under a key. -/
def under (key : String) (e : ConfigError) : ConfigError := { e with path := key :: e.path }

end ConfigError

namespace Config

open Toml

abbrev Setting (α : Type) := Value → Except ConfigError α

def truth : Setting Bool
  | .boolean b => .ok b
  | _ => .error { cause := .invalidType }

def natural : Setting Nat
  | .integer n => if 0 ≤ n then .ok n.toNat else .error { cause := .invalidValue }
  | _ => .error { cause := .invalidType }

/-- The name of a mode. A table is taken for a mode with a value, which no mode has. -/
def matchMode : Setting MatchMode
  | .string s => named s
  | .table ((key, _) :: _) => do
    let _ ← named key
    throw { cause := .invalidType, path := [key] }
  | _ => .error { cause := .invalidType }
where
  named (s : String) : Except ConfigError MatchMode :=
    match MatchMode.ofName? s with
    | some mode => .ok mode
    | none => .error { cause := .unknownName }

/-- The value of a section: settings under their names, or the settings alone. -/
inductive Section where
  | named (entries : List (String × Value))
  | listed (values : List Value)

/-- A section of the document; a missing one is empty. A date is no section, but no setting
either. -/
def section? (entries : List (String × Value)) (key : String) : Except ConfigError Section :=
  match entries.lookup key with
  | none | some (.dateTime _) => .ok (.named [])
  | some (.table entries) => .ok (.named entries)
  | some (.array values) => .ok (.listed values)
  | some _ => .error { cause := .invalidType, path := [key] }

/-- Reads one setting of a section. In a list it is found by its place. -/
def setting {α : Type} (s : Section) (key : String) (place : Nat) (read : Setting α) (default : α) :
    Except ConfigError α :=
  match s with
  | .named entries =>
    match entries.lookup key with
    | none => .ok default
    | some v => (read v).mapError (.under key)
  | .listed values =>
    match values[place]? with
    | none => .error { cause := .invalidLength }
    | some v => (read v).mapError (.under (toString place))

def readContent (s : Section) : Except ConfigError ContentConfig :=
  let default : ContentConfig := {}
  match s with
  | .named _ => do
    let mode ← setting s "mode" 2 matchMode default.mode
    let readFallback ← setting s "read_fallback" 1 truth default.readFallback
    let useMmap ← setting s "use_mmap" 0 truth default.useMmap
    return { useMmap, readFallback, mode }
  | .listed _ => do
    let useMmap ← setting s "use_mmap" 0 truth default.useMmap
    let readFallback ← setting s "read_fallback" 1 truth default.readFallback
    let mode ← setting s "mode" 2 matchMode default.mode
    return { useMmap, readFallback, mode }

def readSelfCheck (s : Section) : Except ConfigError SelfCheckConfig :=
  let default : SelfCheckConfig := {}
  match s with
  | .named _ => do
    let growthBits ← setting s "growth_bits" 1 natural default.growthBits
    let instances ← setting s "instances" 0 natural default.instances
    let seed ← setting s "seed" 2 natural default.seed
    return { instances, growthBits, seed }
  | .listed _ => do
    let instances ← setting s "instances" 0 natural default.instances
    let growthBits ← setting s "growth_bits" 1 natural default.growthBits
    let seed ← setting s "seed" 2 natural default.seed
    return { instances, growthBits, seed }

def ofEntries (entries : List (String × Value)) : Except ConfigError Config := do
  let content ← section? entries "content"
  let content ← (readContent content).mapError (.under "content")
  let selfCheck ← section? entries "self_check"
  let selfCheck ← (readSelfCheck selfCheck).mapError (.under "self_check")
  return { content, selfCheck }

/-- Reads a configuration from the text of its file, if there is one. -/
def ofFile (text : Option String) : Except ConfigError Config :=
  match text with
  | none => .error { cause := .missingFile }
  | some text =>
    match parse? text with
    | none => .error { cause := .malformed }
    | some entries => ofEntries entries

end Config

end Sigil
