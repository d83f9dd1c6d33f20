import Constituency.CommandLine.Options
import Constituency.CommandLine.Report
import Constituency.Grammar.Definition
import Constituency.Text.Literal

/-!
A run of the command line, against any host that offers files, an input and two outputs. The grammar
is read first, then the conversion is saved, then the sentences are opened, then the file for the
report is emptied, and only then are sentences read. A failure ends the run; what was written before
it stays.
-/
namespace Constituency.CommandLine

/-- Why a file or an input could not be used. -/
inductive Fault where
  | notFound
  | isDirectory
  | notDirectory
  | denied
  | nameTooLong
  | notText
  | other (code : Nat) (details : String)
  deriving DecidableEq, Repr

/-- A record with named fields, as an error is written. -/
def record (name : String) (fields : String) : String := name ++ " \x7b " ++ fields ++ " \x7d"

namespace Fault

def system (code : Nat) (kind details : String) : String :=
  record "Os" ("code: " ++ toString code ++ ", kind: " ++ kind ++ ", message: " ++
    Text.literal details)

def describe : Fault → String
  | .notFound => system 2 "NotFound" "No such file or directory"
  | .isDirectory => system 21 "IsADirectory" "Is a directory"
  | .notDirectory => system 20 "NotADirectory" "Not a directory"
  | .denied => system 13 "PermissionDenied" "Permission denied"
  | .nameTooLong => system 36 "InvalidFilename" "File name too long"
  | .notText =>
    record "Error" ("kind: InvalidData, message: " ++
      Text.literal "stream did not contain valid UTF-8")
  | .other code details => system code "Uncategorized" details

end Fault

/-- Why a run failed. -/
inductive Failure where
  | definition (error : DefinitionError)
  | file (fault : Fault)
  deriving DecidableEq, Repr

def Failure.describe : Failure → String
  | .definition (.malformedRule line text) =>
    record "MalformedRule" ("line: " ++ toString line ++ ", text: " ++ Text.literal text)
  | .definition (.missingStart line) => record "MissingStartSymbol" ("line: " ++ toString line)
  | .definition (.emptyAlternative line text) =>
    record "EmptyAlternative" ("line: " ++ toString line ++ ", text: " ++ Text.literal text)
  | .definition .noProductions => "EmptyGrammar"
  | .file fault => fault.describe

abbrev Bytes := List UInt8

/-- What a run needs from the place it runs in. -/
structure Host (m : Type → Type) where
  /-- The file can be opened for reading. -/
  probe : String → m (Except Fault Unit)
  read : String → m (Except Fault Bytes)
  /-- The file holds exactly these bytes from now on. -/
  write : String → Bytes → m (Except Fault Unit)
  input : m Bytes
  print : String → m Unit
  printError : String → m Unit

variable {m : Type → Type} [Monad m]

/-- The grammar in a file. -/
def loadFile (host : Host m) (path : String) : ExceptT Failure m Grammar := do
  let bytes ← (ExceptT.mk (host.read path)).adapt .file
  match String.fromUTF8? ⟨bytes.toArray⟩ with
  | none => throw (.file .notText)
  | some text =>
    match Grammar.load text with
    | .error e => throw (.definition e)
    | .ok g => return g

/-- Writes a text to a file. -/
def save (host : Host m) (path text : String) : ExceptT Failure m Unit :=
  (ExceptT.mk (host.write path text.toUTF8.toList)).adapt .file

/-- The bytes of the sentences. Before a file is read, it is opened and the report is emptied. -/
def sentenceBytes (host : Host m) (o : Options) : ExceptT Failure m Bytes := do
  match o.sentences with
  | some path => (ExceptT.mk (host.probe path)).adapt .file
  | none => pure ()
  match o.report with
  | some path => save host path ""
  | none => pure ()
  match o.sentences with
  | some path => (ExceptT.mk (host.read path)).adapt .file
  | none => host.input

/-- Puts a transcript where it belongs. -/
def deliver (host : Host m) (o : Options) (t : Transcript) : ExceptT Failure m Unit := do
  host.printError t.charts
  match o.report with
  | some path => save host path t.report
  | none => host.print t.report
  if !t.complete then throw (.file .notText)

/-- The task that options set, once the grammar is there. -/
def Options.task (o : Options) (g : Grammar) : Task where
  source := g
  conversion := if o.convert || o.conversion.isSome then some g.toWeakNormal else none
  raw := o.raw
  recognize := o.recognize
  chart := o.chart

/-- A run with valid options. -/
def perform (host : Host m) (o : Options) : ExceptT Failure m Unit := do
  let g ← loadFile host o.grammar
  let task := o.task g
  match task.conversion, o.conversion with
  | some c, some path => save host path c.grammar.render
  | _, _ => pure ()
  let bytes ← sentenceBytes host o
  deliver host o (task.transcript (Text.byteLines bytes))

def usage : String :=
  "usage: [--cnf] [--cnf-out FILE] [--raw] [-r] [-c] [-o FILE] GRAMMAR [SENTENCES]\n"

/-- A run from its arguments to its exit code. -/
def run (host : Host m) (arguments : List String) : m Nat := do
  match Options.read arguments with
  | none =>
    host.printError usage
    return 2
  | some o =>
    match ← (perform host o).run with
    | .ok () => return 0
    | .error e =>
      host.printError ("Error: " ++ e.describe ++ "\n")
      return 1

end Constituency.CommandLine
