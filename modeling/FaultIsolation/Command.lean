import FaultIsolation.Chunk
import FaultIsolation.Command.Arguments
import FaultIsolation.Elf

/-!
The command: validates the code in a file, prints a line for each thing that is wrong with it, and
tells by its exit code whether the code is good (0), bad (1) or could not be looked at (2).
-/

namespace FaultIsolation.Command

def version : String := "sfi-validator 0.1.0"

/-- Why a file cannot be read. -/
inductive ReadFailure where
  | notFound
  | isDirectory
  | other (reason : String)
  deriving DecidableEq

def ReadFailure.message : ReadFailure → String
  | .notFound => "No such file or directory (os error 2)"
  | .isDirectory => "Is a directory (os error 21)"
  | .other reason => reason

/-- Why code could not be looked at. -/
inductive Failure where
  | usage (e : UsageError)
  | unreadable (file : String) (why : ReadFailure)
  | malformed (why : Elf.Malformed)
  | noCode
  | unreadableCode (why : Elf.Malformed)
  deriving DecidableEq

def Failure.message : Failure → String
  | .usage e => e.message
  | .unreadable file why => s!"failed to read {file}: {why.message}"
  | .malformed why => s!"failed to parse object file: {why.message}"
  | .noCode => "no code section found"
  | .unreadableCode why => s!"failed to read code section: {why.message}"

structure Result where
  exitCode : UInt32
  output : String := ""
  error : String := ""
  deriving DecidableEq

namespace Result

def ofFailure (f : Failure) : Result where
  exitCode := 2
  error := s!"error: {f.message}"

def ofReport (r : Report) : Result where
  exitCode := if r.ok then 0 else 1
  output := String.join (r.diagnostics.map (·.line ++ "\n"))

/-- A broken assertion is a fault of the rules and not of the code. -/
def ofAssertion (a : Assertion) : Result where
  exitCode := 101
  error := a.message

end Result

/-- The section to look at: the one asked for, or the usual one. -/
def codeSection? (image : Elf.Image) : Option String → Option Elf.Section
  | some name => image.find? name
  | none => image.find? ".text" <|> image.find? "__text"

/-- The code in a file and its mode. What a file says about its mode outweighs the request. -/
def code (request : Request) (bytes : List UInt8) : Except Failure (Mode × List UInt8) := do
  if request.raw then return (request.mode.getD .bits64, bytes)
  match Elf.parse bytes with
  | .error why => throw (.malformed why)
  | .ok image =>
    let some s := codeSection? image request.sectionName | throw .noCode
    match image.data s with
    | .error why => throw (.unreadableCode why)
    | .ok code => return ((image.mode? <|> request.mode).getD .bits64, code)

def check (request : Request) (content : Except ReadFailure (List UInt8)) : Result :=
  match content with
  | .error why => .ofFailure (.unreadable request.file why)
  | .ok bytes =>
    match code request bytes with
    | .error f => .ofFailure f
    | .ok (mode, code) =>
      match Chunk.validate mode code with
      | .error a => .ofAssertion a
      | .ok report => .ofReport report

/-- The command, given how to read a file. -/
def run {m : Type → Type} [Monad m] (read : String → m (Except ReadFailure (List UInt8)))
    (arguments : List String) : m Result :=
  match parse arguments with
  | .error e => return .ofFailure (.usage e)
  | .ok .showVersion => return { exitCode := 0, output := version ++ "\n" }
  | .ok (.check request) => return check request (← read request.file)

end FaultIsolation.Command
