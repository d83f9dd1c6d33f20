import Constituency.Parsing
import Constituency.Text.Blank
import Constituency.Text.Line
import Constituency.Tree.Bracketed

/-!
Reports. Each sentence gives a block of lines: the sentence, a verdict, its trees with numbers, and
an empty line. The report of a run is the blocks of its sentences in order, up to the first line
that is not valid text.
-/
namespace Constituency.CommandLine

/-- How the sentences of a run are treated. -/
structure Task where
  source : Grammar
  conversion : Option Conversion
  raw : Bool
  recognize : Bool
  chart : Bool

namespace Task

/-- The grammar that tables are filled with. -/
def active (t : Task) : Grammar :=
  match t.conversion with
  | some c => c.grammar
  | none => t.source

def parse (t : Task) (tokens : List String) : Parse :=
  match t.conversion with
  | some c => if t.raw then c.grammar.parse tokens else c.parse tokens
  | none => t.source.parse tokens

end Task

/-- The verdict on a sentence, with the number of its trees if they were built. -/
def verdict (sentence : String) (outcome : Outcome) (trees : Option Nat) : String :=
  "The sentence, \"" ++ sentence ++ "\", " ++
    match outcome, trees with
    | .accepted, some n =>
      "is accepted by the given grammar and has " ++ toString n ++ " valid parse" ++
        (if n = 1 then "" else "s") ++ "!"
    | .accepted, none => "is accepted by the given grammar!"
    | .rejected, _ => "is not accepted by the given grammar!"
    | .unknownToken token, _ =>
      "is not accepted by the given grammar since the token, \"" ++ token ++
        "\", is not part of the lexicon!"

/-- Trees, one to a line, numbered from `number` on. -/
def numbered (number : Nat) : List Tree → String
  | [] => ""
  | t :: ts => toString number ++ ") " ++ t.bracketed ++ "\n" ++ numbered (number + 1) ts

/-- The block of a sentence. -/
def block (sentence : String) (outcome : Outcome) (trees : Option (List Tree)) : String :=
  "Parsing sentence: " ++ sentence ++ "\n" ++
    verdict sentence outcome (trees.map List.length) ++ "\n" ++ numbered 1 (trees.getD []) ++ "\n"

/-- The chart of a sentence under a heading. -/
def chartBlock (sentence : String) (chart : Chart) : String :=
  "chart for \"" ++ sentence ++ "\":\n" ++ chart.render ++ "\n"

/-- What a run writes: its report, its charts, and whether every line was valid text. -/
structure Transcript where
  report : String
  charts : String
  complete : Bool
  deriving DecidableEq, Repr

namespace Task

/-- The block of a sentence, from its tokens. -/
def report (t : Task) (tokens : List String) : String :=
  let sentence := joinWith " " tokens
  if t.recognize then block sentence (t.active.recognize tokens) none
  else
    let parse := t.parse tokens
    block sentence parse.outcome (some parse.trees)

/-- The chart of a sentence, if it is asked for and every token is known. -/
def charts (t : Task) (tokens : List String) : String :=
  if t.chart then
    match t.active.chart tokens with
    | .ok chart => chartBlock (joinWith " " tokens) chart
    | .error _ => ""
  else ""

/-- The transcript of lines. Blank lines are passed over. -/
def transcript (t : Task) : List (List UInt8) → Transcript
  | [] => ⟨"", "", true⟩
  | line :: rest =>
    match String.fromUTF8? ⟨line.toArray⟩ with
    | none => ⟨"", "", false⟩
    | some text =>
      let tokens := Text.wordsOf text
      let after := t.transcript rest
      if tokens.isEmpty then after
      else ⟨t.report tokens ++ after.report, t.charts tokens ++ after.charts, after.complete⟩

end Task

end Constituency.CommandLine
