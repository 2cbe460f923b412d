import FaultIsolation.Mode

/-!
The arguments of the command. They are read from left to right. A value is looked at only when the
argument after it has been recognised, so an argument that nobody knows is complained about before a
bad value in front of it.
-/

namespace FaultIsolation.Command

/-- What can be given. -/
inductive Setting where
  | file
  | bits
  | raw
  | sectionName
  | verbose
  deriving DecidableEq

/-- The setting as complaints spell it. -/
def Setting.usage : Setting → String
  | .file => "<FILE>"
  | .bits => "--bits <BITS>"
  | .raw => "--raw"
  | .sectionName => "--section <SECTION>"
  | .verbose => "--verbose"

inductive UsageError where
  | missingFile
  | missingValue (s : Setting)
  | invalidValue (s : Setting) (value : String)
  | needlessValue (option value : String)
  | unexpected (argument : String)
  | repeated (s : Setting)
  | conflict (first second : Setting)
  deriving DecidableEq

/-- The first line of the complaint. -/
def UsageError.message : UsageError → String
  | .missingFile => "the following required arguments were not provided:"
  | .missingValue s => s!"a value is required for '{s.usage}' but none was supplied"
  | .invalidValue s value => s!"invalid value '{value}' for '{s.usage}'"
  | .needlessValue option value =>
    s!"unexpected value '{value}' for '{option}' found; no more were expected"
  | .unexpected argument => s!"unexpected argument '{argument}' found"
  | .repeated s => s!"the argument '{s.usage}' cannot be used multiple times"
  | .conflict first second =>
    s!"the argument '{first.usage}' cannot be used with '{second.usage}'"

/-- A setting with its value. -/
inductive Given where
  | file (name : String)
  | bits (mode : Mode)
  | raw
  | sectionName (name : String)
  | verbose
  deriving DecidableEq

def Given.setting : Given → Setting
  | .file _ => .file
  | .bits _ => .bits
  | .raw => .raw
  | .sectionName _ => .sectionName
  | .verbose => .verbose

/-- What the user wants looked at, and how. -/
structure Request where
  file : String
  mode : Option Mode := none
  raw : Bool := false
  sectionName : Option String := none
  deriving DecidableEq

inductive Action where
  | showVersion
  | check (request : Request)
  deriving DecidableEq

/-- How far the arguments have been read. -/
structure Progress where
  /-- What has been given, in order. -/
  given : List Given := []
  /-- A setting whose value is yet to come, or yet to be looked at. -/
  pending : Option (Setting × Option String) := none
  /-- Only file names follow. -/
  onlyFiles : Bool := false

namespace Progress

def has (p : Progress) (s : Setting) : Bool :=
  p.given.any (·.setting == s)

def add (p : Progress) (g : Given) : Except UsageError Progress :=
  if p.has g.setting then .error (.repeated g.setting) else .ok { p with given := p.given ++ [g] }

/-- Reads a value. One that cannot be empty is missing if it is. -/
def valueOf (s : Setting) (value : String) : Except UsageError Given :=
  match s, value with
  | .bits, "32" => .ok (.bits .bits32)
  | .bits, "64" => .ok (.bits .bits64)
  | .bits, "" => .error (.missingValue .bits)
  | .bits, _ => .error (.invalidValue .bits value)
  | .file, "" => .error (.missingValue .file)
  | .file, _ => .ok (.file value)
  | .sectionName, _ => .ok (.sectionName value)
  | .raw, _ => .ok .raw
  | .verbose, _ => .ok .verbose

/-- A setting that was given before is a mistake whatever its value. -/
def addValue (p : Progress) (s : Setting) (value : String) : Except UsageError Progress := do
  if p.has s then throw (.repeated s)
  p.add (← valueOf s value)

/-- Looks at the value that is pending. -/
def settle (p : Progress) : Except UsageError Progress :=
  match p.pending with
  | none => .ok p
  | some (s, none) => .error (.missingValue s)
  | some (s, some value) => { p with pending := none }.addValue s value

/-- A file name was given, settled or not. -/
def hasFile (p : Progress) : Bool :=
  p.has .file || p.pending.any (·.1 == .file)

def file (p : Progress) (name : String) : Except UsageError Progress := do
  if p.hasFile then throw (.unexpected name)
  return { ← p.settle with pending := some (.file, some name) }

/-- An option with a value, which may be attached to it. -/
def option (p : Progress) (s : Setting) (attached : Option String) :
    Except UsageError Progress := do
  let p ← p.settle
  match attached with
  | some value => p.addValue s value
  | none => return { p with pending := some (s, none) }

def flag (p : Progress) (g : Given) : Except UsageError Progress := do
  (← p.settle).add g

/-- Conflicts are complained about before a missing file, and in the order of the arguments. -/
def finish (p : Progress) : Except UsageError Request := do
  let p ← p.settle
  match p.given.filter fun g => g.setting = .raw ∨ g.setting = .sectionName with
  | first :: second :: _ => throw (.conflict first.setting second.setting)
  | _ => pure ()
  let some file := p.given.findSome? fun | .file name => some name | _ => none
    | throw .missingFile
  return {
    file
    mode := p.given.findSome? fun | .bits mode => some mode | _ => none
    raw := p.has .raw
    sectionName := p.given.findSome? fun | .sectionName name => some name | _ => none }

end Progress

/-- An argument by its looks. -/
inductive Argument where
  | separator
  | long (name : String) (attached : Option String)
  | short (letters : List Char)
  | value (text : String)

def Argument.ofString (s : String) : Argument :=
  match s.toList with
  | ['-', '-'] => .separator
  | '-' :: '-' :: cs =>
    let name := cs.takeWhile (· != '=')
    let attached := match cs.dropWhile (· != '=') with
      | [] => none
      | _ :: rest => some (String.ofList rest)
    .long (String.ofList name) attached
  | '-' :: c :: cs => .short (c :: cs)
  | _ => .value s

/-- Whether reading goes on. -/
inductive Reading where
  | more (p : Progress)
  | showVersion

def readLong (p : Progress) (name : String) (attached : Option String) :
    Except UsageError Reading := do
  match name, attached with
  | "bits", _ => return .more (← p.option .bits attached)
  | "section", _ => return .more (← p.option .sectionName attached)
  | "raw", none => return .more (← p.flag .raw)
  | "verbose", none => return .more (← p.flag .verbose)
  | "version", none => do
    let _ ← p.settle
    return .showVersion
  | "raw", some value | "verbose", some value | "version", some value =>
    throw (.needlessValue ("--" ++ name) value)
  | _, _ => throw (.unexpected ("--" ++ name))

def readShort (p : Progress) : List Char → Except UsageError Reading
  | [] => .ok (.more p)
  | 'v' :: cs => do readShort (← p.flag .verbose) cs
  | 'V' :: _ => do
    let _ ← p.settle
    return .showVersion
  | c :: _ => .error (.unexpected (String.ofList ['-', c]))

/-- A text that is no option is the value that an option waits for, or else a file name. -/
def readText (p : Progress) (text : String) : Except UsageError Reading := do
  match p.pending with
  | some (s, none) => return .more { p with pending := some (s, some text) }
  | _ => return .more (← p.file text)

def readArgument (p : Progress) (text : String) : Except UsageError Reading := do
  if p.onlyFiles then return .more (← p.file text)
  match Argument.ofString text with
  | .separator => return .more { p with onlyFiles := true }
  | .long name attached => readLong p name attached
  | .short letters => readShort p letters
  | .value text => readText p text

def readAll (p : Progress) : List String → Except UsageError Action
  | [] => return .check (← p.finish)
  | text :: rest => do
    match ← readArgument p text with
    | .showVersion => return .showVersion
    | .more p => readAll p rest

def parse (arguments : List String) : Except UsageError Action :=
  readAll {} arguments

end FaultIsolation.Command
