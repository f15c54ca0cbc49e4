/-
`CommandLine.lean` -- the command, without its input and output.

Arguments are read from left to right. The first thing that settles the matter
does: a request for help or for the version, or a fault in the arguments. What
remains is a job, and a job needs exactly one text, which is a program or the name
of a file with one. Flags can share a dash, and `--` ends the options, so that a
text may begin with a dash too.

`answer` does the job for any way of reading files, and only has to be told what
reading a file gives.
-/
import MiniPascal.Trace

set_option autoImplicit false

namespace MiniPascal

namespace CommandLine

/-! ## Requests -/

/-- What the arguments ask for. -/
inductive Request where
  | help
  | version
  | misuse
  | job (fromFile checkOnly : Bool) (contents : String)
deriving DecidableEq, Repr

/-- What has been read of the arguments. -/
structure Reading where
  fromFile : Bool
  checkOnly : Bool
  contents : Option String

/-- Reading goes on, or the request is settled. -/
abbrev Step := Except Request Reading

namespace Reading

/-- No argument yet. -/
def start : Reading := ⟨false, false, none⟩

/-- The flag for files, once. -/
def file (r : Reading) : Step :=
  if r.fromFile then .error .misuse else .ok { r with fromFile := true }

/-- The flag for checking, once. -/
def check (r : Reading) : Step :=
  if r.checkOnly then .error .misuse else .ok { r with checkOnly := true }

/-- The text, once. -/
def text (r : Reading) (contents : String) : Step :=
  match r.contents with
  | some _ => .error .misuse
  | none => .ok { r with contents := some contents }

/-- A long option. -/
def long (r : Reading) : String → Step
  | "--file" => r.file
  | "--check" => r.check
  | "--help" => .error .help
  | "--version" => .error .version
  | _ => .error .misuse

/-- One letter behind a dash. -/
def short (r : Reading) : Char → Step
  | 'f' => r.file
  | 'c' => r.check
  | 'h' => .error .help
  | 'V' => .error .version
  | _ => .error .misuse

/-- An argument before the end of the options. A single dash is a text. -/
def argument (r : Reading) (arg : String) : Step :=
  match arg.toList with
  | '-' :: '-' :: _ => r.long arg
  | '-' :: letter :: letters => (letter :: letters).foldlM short r
  | _ => r.text arg

/-- The arguments, in order. Behind `--` there are only texts. -/
def arguments (r : Reading) : List String → Step
  | [] => .ok r
  | arg :: args =>
    if arg = "--" then args.foldlM text r
    else
      match r.argument arg with
      | .ok r => r.arguments args
      | .error request => .error request

end Reading

/-- The request that the arguments make. -/
def request (args : List String) : Request :=
  match Reading.start.arguments args with
  | .error settled => settled
  | .ok r =>
    match r.contents with
    | some contents => .job r.fromFile r.checkOnly contents
    | none => .misuse

/-! ## Answers -/

/-- The name of the command. -/
def commandName : String := "pascalette"

/-- What `--help` shows, line by line. -/
def helpLines : List String :=
  ["An interpreter for a small Pascal subset: nested procedures, INTEGER/REAL arithmetic "
      ++ "and static scope checking.",
    "",
    "Usage: " ++ commandName ++ " [OPTIONS] <CONTENTS>",
    "",
    "Arguments:",
    "  <CONTENTS>  ",
    "",
    "Options:",
    "  -f, --file     Tells " ++ commandName ++ " to read a file instead of an inline program",
    "  -c, --check    Only lex, parse and check the program, without running it",
    "  -h, --help     Print help",
    "  -V, --version  Print version"]

/-- What `--help` shows. -/
def helpText : String := String.join (helpLines.map (· ++ "\n"))

/-- What `--version` shows. -/
def versionText : String := commandName ++ " 0.1.0\n"

/-- What is shown when the arguments make no sense. -/
def usageText : String :=
  "Usage: " ++ commandName ++ " [OPTIONS] <CONTENTS>\n\nFor more information, try '--help'.\n"

/-- What is shown when a file cannot be read. -/
def unreadable (name : String) : String :=
  "Failed to read the input file '" ++ name ++ "'. Perhaps this file does not exist?\n"

/-- What a finished command leaves: its exit code, and what it wrote where. -/
structure Outcome where
  code : UInt32
  output : String
  diagnostics : String
deriving DecidableEq, Repr

namespace Outcome

/-- It went well. -/
def success (output : String) : Outcome := ⟨0, output, ""⟩

/-- The job could not be done. -/
def failure (diagnostics : String) : Outcome := ⟨1, "", diagnostics⟩

/-- There was no job to do. -/
def refusal : Outcome := ⟨2, "", usageText⟩

/-- The outcome of a stage, of whose result `shown` gets written. -/
def ofResult {α : Type} (shown : α → String) : Except (Error Fault) α → Outcome
  | .ok a => success (shown a)
  | .error e => failure (e.message ++ "\n")

/-- The outcome of checking or running a program. -/
def ofSource (checkOnly : Bool) (source : String) : Outcome :=
  if checkOnly then ofResult (fun _ => "") (MiniPascal.check source)
  else ofResult Store.text (MiniPascal.run source)

end Outcome

/-- The outcome of a request, where `read` gives the text of a file if it has one. -/
def answer {m : Type → Type} [Monad m] (read : String → m (Option String)) :
    Request → m Outcome
  | .help => return .success helpText
  | .version => return .success versionText
  | .misuse => return .refusal
  | .job false checkOnly source => return .ofSource checkOnly source
  | .job true checkOnly name => do
    match ← read name with
    | some source => return .ofSource checkOnly source
    | none => return .failure (unreadable name)

end CommandLine

end MiniPascal
