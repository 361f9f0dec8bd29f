import Nivren.Syntax
import Nivren.Library.Text

/-! The project manifest `niv.toml`.

A manifest is read line by line: comments are cut off, a bracketed line opens a section, every other
line is a key with a quoted value. What a key means depends on the section it stands in. The directory
of a manifest is left out; the other modules work inside it.
-/

namespace Nivren

open Text

abbrev TextMap (α : Type) := Std.ExtTreeMap String α

abbrev TextSet := Std.ExtTreeSet String

structure Manifest where
  name : String
  version : String
  entry : String
  dependencies : TextMap String
  capabilities : TextSet
  capabilityScopes : TextMap String
  unsafeModules : TextSet
  instructionLimit : Option ℕ
  memoryLimit : Option ℕ
  payloadLimit : Option ℕ
  edition : ℕ
deriving DecidableEq

namespace Manifest

def grants (manifest : Manifest) : List (String × String) :=
  manifest.capabilities.toList.map fun capability =>
    (capability, manifest.capabilityScopes[capability]?.getD "allow")

def projectError (message : String) (line : ℕ) : NivError := .new message line 1

/-- The character `"`. -/
def quoteMark : Char := '\x22'

/-- `quoted`. -/
def quoted (value : List Char) : Option String :=
  match (value.dropPrefix? [quoteMark]).bind (·.dropSuffix? [quoteMark]) with
  | some inner => if quoteMark ∈ inner then none else some (String.ofList inner)
  | none => none

def validName (value : String) : Bool :=
  value ≠ "" && value.toList.all fun c => c.isLower || c.isDigit || c == '-' || c == '_'

def validDependencyName (value : String) : Bool :=
  match value.toList with
  | first :: rest => (first.isAlpha || first == '_') && rest.all fun c => c.isAlphanum || c == '_'
  | [] => false

def validVersionPart (part : List Char) : Bool :=
  part ≠ [] && part.all Char.isDigit && (part = ['0'] || part.head? ≠ some '0')

def validVersion (value : String) : Bool :=
  let parts := value.toList.splitOn '.'
  parts.length = 3 && parts.all validVersionPart

def knownCapability (name : String) : Bool :=
  ["FileRead", "FileWrite", "Environment", "Time", "Process", "Network", "Task", "Channel", "Log",
    "Random", "Native"].contains name

def scopeOf (kind value : String) : Bool := (value.toList.dropPrefix? kind.toList).any (· ≠ [])

/-- The clauses of a composed scope, with the kinds seen so far; gives all kinds seen. -/
def composedKinds (allowed : List String) : List (List Char) → List String → Option (List String)
  | [], seen => some seen
  | clause :: rest, seen =>
    match splitOnce ':' clause with
    | none => none
    | some (kind, choices) =>
      let kind := String.ofList kind
      if !allowed.contains kind || seen.contains kind || choices.isEmpty ||
          (choices.splitOn ',').any List.isEmpty then none
      else composedKinds allowed rest (kind :: seen)

/-- `valid_composed_scope`. -/
def validComposedScope (value required : String) (optional : List String) : Bool :=
  (composedKinds (required :: optional) (value.toList.splitOn ';') []).any (·.contains required)

/-- The grants a capability can be given. -/
def validGrant (capability value : String) : Bool :=
  value == "allow" ||
  (capability == "FileRead" || capability == "FileWrite") && scopeOf "path:" value ||
  capability == "Network" && validComposedScope value "host" ["method"] ||
  capability == "Environment" && (scopeOf "name:" value || scopeOf "prefix:" value) ||
  capability == "Process" && validComposedScope value "command" ["arg0"] ||
  capability == "Native" && (scopeOf "path:" value || scopeOf "kind:" value)

/-- What the message about a grant suggests. -/
def grantHint (capability : String) : String :=
  if capability == "FileRead" || capability == "FileWrite" then
    " or a path scope such as \"path:./data\""
  else if capability == "Network" then
    " or a host/method scope such as \"host:api.example.com,*.cdn.example.com;method:GET,POST\""
  else if capability == "Environment" then
    " or a name/prefix scope such as \"name:HOME\" or \"prefix:NIVREN_\""
  else if capability == "Process" then
    " or a command/first-argument scope such as \"command:git;arg0:status\""
  else if capability == "Native" then
    " or a path/kind scope such as \"path:./native\" or \"kind:database\""
  else ""

def unsafeModuleNames : List String :=
  ["memory", "layouts", "allocators", "atomics", "threads", "simd", "devices", "ffi"]

structure Reading where
  section_ : String
  values : TextMap String
  dependencies : TextMap String
  capabilities : TextSet
  capabilityScopes : TextMap String
  unsafeModules : TextSet
  instructionLimit : Option ℕ
  memoryLimit : Option ℕ
  payloadLimit : Option ℕ

def Reading.start : Reading := ⟨"", ∅, ∅, ∅, ∅, ∅, none, none, none⟩

def sections : List String := ["package", "dependencies", "capabilities", "unsafe", "limits"]

/-- A value of `[package]`. -/
def packageValue (s : Reading) (key value : String) (line : ℕ) : Except NivError Reading :=
  if s.values.contains key then
    .error (projectError ("duplicate package key '" ++ key ++ "'") line)
  else .ok { s with values := s.values.insert key value }

/-- A value of `[dependencies]`. -/
def dependencyValue (s : Reading) (key value : String) (line : ℕ) : Except NivError Reading :=
  if !validDependencyName key then
    .error (projectError "dependency names must be valid Nivren identifiers" line)
  else if !validVersion value then
    .error (projectError
      ("dependency '" ++ key ++ "' must use an exact major.minor.patch version") line)
  else if s.dependencies.contains key then
    .error (projectError ("duplicate dependency '" ++ key ++ "'") line)
  else .ok { s with dependencies := s.dependencies.insert key value }

/-- A value of `[capabilities]`. -/
def capabilityValue (s : Reading) (key value : String) (line : ℕ) : Except NivError Reading :=
  if !knownCapability key then
    .error (projectError ("unknown capability '" ++ key ++ "'") line)
  else if !validGrant key value then
    .error (projectError ("capability '" ++ key ++ "' must be \"allow\"" ++ grantHint key) line)
  else if s.capabilities.contains key then
    .error (projectError ("duplicate capability '" ++ key ++ "'") line)
  else .ok { s with
    capabilities := s.capabilities.insert key
    capabilityScopes :=
      if value = "allow" then s.capabilityScopes else s.capabilityScopes.insert key value }

/-- A value of `[unsafe]`. -/
def unsafeValue (s : Reading) (key value : String) (line : ℕ) : Except NivError Reading :=
  if !unsafeModuleNames.contains key then
    .error (projectError ("unknown unsafe module '" ++ key ++ "'") line)
  else if value ≠ "allow" then
    .error (projectError ("unsafe module '" ++ key ++ "' must be explicitly set to \"allow\"") line)
  else if s.unsafeModules.contains key then
    .error (projectError ("duplicate unsafe module '" ++ key ++ "'") line)
  else .ok { s with unsafeModules := s.unsafeModules.insert key }

def parseU64 (value : List Char) : Option ℕ := (decimal value).filter (· < 2 ^ 64)

/-- A value of `[limits]`. -/
def limitValue (s : Reading) (key value : String) (line : ℕ) : Except NivError Reading :=
  if !(["instructions", "memory_bytes", "payload_bytes"].contains key) then
    .error (projectError ("unknown limit '" ++ key ++ "'") line)
  else match (parseU64 value.toList).filter (0 < ·) with
  | none => .error (projectError (key ++ " must be a positive integer") line)
  | some parsed =>
    if key == "payload_bytes" && !(1024 ≤ parsed && parsed ≤ 268435456) then
      .error (projectError "payload_bytes must be from 1024 through 268435456" line)
    else
      let slot := if key == "instructions" then s.instructionLimit
        else if key == "memory_bytes" then s.memoryLimit else s.payloadLimit
      if slot.isSome then .error (projectError ("duplicate limit '" ++ key ++ "'") line)
      else if key == "instructions" then .ok { s with instructionLimit := some parsed }
      else if key == "memory_bytes" then .ok { s with memoryLimit := some parsed }
      else .ok { s with payloadLimit := some parsed }

/-- A value, by the section it stands in. -/
def sectionValue (s : Reading) (key value : String) (line : ℕ) : Except NivError Reading :=
  if s.section_ = "package" then packageValue s key value line
  else if s.section_ = "dependencies" then dependencyValue s key value line
  else if s.section_ = "capabilities" then capabilityValue s key value line
  else if s.section_ = "unsafe" then unsafeValue s key value line
  else limitValue s key value line

def openSection (s : Reading) (name : String) (line : ℕ) : Except NivError Reading :=
  if sections.contains name then .ok { s with section_ := name }
  else .error (projectError ("unknown manifest section [" ++ name ++ "]") line)

/-- A line with a key and a value. -/
def keyLine (s : Reading) (text : List Char) (line : ℕ) : Except NivError Reading :=
  if !sections.contains s.section_ then
    .error (projectError ("manifest values must be inside [package], [dependencies], " ++
      "[capabilities], [unsafe], or [limits]") line)
  else match splitOnce '=' text with
  | none => .error (projectError "expected a key = \"value\" pair" line)
  | some (key, rawValue) =>
    let key := String.ofList (trim key)
    if s.section_ = "package" && !(["name", "version", "entry", "edition"].contains key) then
      .error (projectError ("unknown package key '" ++ key ++ "'") line)
    else match quoted (trim rawValue) with
    | none => .error (projectError ("'" ++ key ++ "' must be a quoted string") line)
    | some value => sectionValue s key value line

/-- One line of a manifest. -/
def readLine (s : Reading) (raw : List Char) (line : ℕ) : Except NivError Reading :=
  let text := trim (raw.takeWhile (· != '#'))
  if text = [] then .ok s
  else if text.head? = some '[' ∧ text.getLast? = some ']' then
    openSection s (String.ofList (trim text.tail.dropLast)) line
  else keyLine s text line

def readLines : List (List Char) → ℕ → Reading → Except NivError Reading
  | [], _, s => .ok s
  | raw :: rest, line, s => do
    let s ← readLine s raw line
    readLines rest (line + 1) s

/-- `required`. -/
def required (values : TextMap String) (key : String) : Except NivError String :=
  match values[key]? with
  | some value => .ok value
  | none => .error (projectError ("missing package key '" ++ key ++ "'") 1)

def readEdition (values : TextMap String) : Except NivError ℕ :=
  match values["edition"]? with
  | none => .ok 4
  | some edition =>
    if edition = "4" then .ok 4
    else if edition = "5" then .ok 5
    else .error (projectError
      ("unknown edition '" ++ edition ++ "'; declare edition = \"4\" or \"5\"") 1)

def escapingEntry (entry : String) : Bool :=
  entry.toList.head? = some '/' || (entry.toList.splitOn '/').contains ['.', '.']

/-- What a manifest says once all its lines are read. -/
def finish (s : Reading) : Except NivError Manifest := do
  let name ← required s.values "name"
  if !validName name then
    throw (projectError "package name must use lowercase ASCII letters, digits, '-' or '_'" 1)
  if s.dependencies.contains name then
    throw (projectError "a package cannot depend on itself" 1)
  if !s.unsafeModules.isEmpty && !s.capabilities.contains "Native" then
    throw (projectError "declared unsafe modules require an explicit Native capability grant" 1)
  let version ← required s.values "version"
  if !validVersion version then
    throw (projectError "package version must have the form major.minor.patch" 1)
  let edition ← readEdition s.values
  let entry ← required s.values "entry"
  if escapingEntry entry then
    throw (projectError "package entry must be a relative path within the project" 1)
  return ⟨name, version, entry, s.dependencies, s.capabilities, s.capabilityScopes,
    s.unsafeModules, s.instructionLimit, s.memoryLimit, s.payloadLimit, edition⟩

/-- `Manifest::parse`. -/
def parse (source : String) : Except NivError Manifest := do
  finish (← readLines (lines source.toList) 1 .start)

end Manifest

end Nivren
