import Constituency.Grammar.Basic
import Constituency.Text.Blank
import Constituency.Text.Line

/-!
Grammar definitions in text, one statement to a line. A line is blank, a comment, a start directive,
or a rule with one or more alternatives. Reading stops at the first line that is none of these.
-/
namespace Constituency

open Text

/-- Why a definition gives no grammar. -/
inductive DefinitionError where
  | malformedRule (line : Nat) (text : String)
  | missingStart (line : Nat)
  | emptyAlternative (line : Nat) (text : String)
  | noProductions
  deriving DecidableEq, Repr

def DefinitionError.message : DefinitionError → String
  | .malformedRule line text =>
    "line " ++ toString line ++ ": expected `LHS -> RHS1 | RHS2 | ...`, got `" ++ text ++ "`"
  | .missingStart line => "line " ++ toString line ++ ": %start directive needs a symbol"
  | .emptyAlternative line text =>
    "line " ++ toString line ++ ": empty alternative in `" ++ text ++ "`"
  | .noProductions => "grammar has no productions"

namespace Definition

/-- The word that opens a start directive. -/
def startWord : List Char := "%start".toList

/-- The word between the two sides of a rule. -/
def arrow : List Char := "->".toList

/-- A line as an error shows it. -/
def shown (line : List Char) : String := String.ofList (trim line)

/-- One alternative of a rule: at least one word, and no arrow among them. -/
def readAlternative (number : Nat) (line : List Char) (lhs : Symbol) (part : List Char) :
    Except DefinitionError Production :=
  let ws := words part
  if ws = [] then .error (.emptyAlternative number (shown line))
  else if arrow ∈ ws then .error (.malformedRule number (shown line))
  else .ok ⟨lhs, ws.map String.ofList⟩

/-- A rule: a symbol, an arrow, and alternatives with a bar between them. -/
def readRule (number : Nat) (line : List Char) : Except DefinitionError (List Production) :=
  match words line with
  | lhs :: second :: _ :: _ =>
    if second = arrow then
      ((afterWord (afterWord line)).splitOnP (· = '|')).mapM
        (readAlternative number line (String.ofList lhs))
    else .error (.malformedRule number (shown line))
  | _ => .error (.malformedRule number (shown line))

end Definition

/-- What one line of a definition says. -/
inductive Statement where
  | nothing
  | start (symbol : Symbol)
  | rule (productions : List Production)
  deriving DecidableEq, Repr

namespace Statement

/-- Reads the line with the given number. A line whose first word starts with `#` is a comment. -/
def read (number : Nat) (line : List Char) : Except DefinitionError Statement :=
  match words line with
  | [] => .ok .nothing
  | first :: rest =>
    if first.head? = some '#' then .ok .nothing
    else if first = Definition.startWord then
      match rest with
      | [] => .error (.missingStart number)
      | symbol :: _ => .ok (.start (String.ofList symbol))
    else (Definition.readRule number line).map .rule

/-- Reads lines in order, the first of which has the given number. -/
def readAll (number : Nat) : List (List Char) → Except DefinitionError (List Statement)
  | [] => .ok []
  | line :: rest =>
    match read number line with
    | .error e => .error e
    | .ok statement => (readAll (number + 1) rest).map (statement :: ·)

def start? : Statement → Option Symbol
  | .start symbol => some symbol
  | _ => none

def productions : Statement → List Production
  | .rule ps => ps
  | _ => []

end Statement

/-- What a whole text says: the symbol of its last start directive, and its productions in order. -/
structure Definition where
  start : Option Symbol
  productions : List Production
  deriving DecidableEq, Repr

namespace Definition

def ofStatements (statements : List Statement) : Definition where
  start := (statements.filterMap Statement.start?).getLast?
  productions := statements.flatMap Statement.productions

def read (text : String) : Except DefinitionError Definition :=
  (Statement.readAll 1 (lines text.toList)).map ofStatements

/-- The directive's symbol, or without a directive the left-hand side of the first rule. -/
def startSymbol (d : Definition) : Option Symbol :=
  d.start.or (d.productions.head?.map Production.lhs)

end Definition

namespace Grammar

/-- A grammar has at least one production. -/
def build (start : Symbol) (productions : List Production) : Except DefinitionError Grammar :=
  if productions.isEmpty then .error .noProductions else .ok (ofProductions start productions)

/-- The grammar that a text defines. -/
def load (text : String) : Except DefinitionError Grammar :=
  match Definition.read text with
  | .error e => .error e
  | .ok d =>
    match d.startSymbol with
    | none => .error .noProductions
    | some start => build start d.productions

end Grammar

end Constituency
