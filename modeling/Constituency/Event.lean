import Constituency.Grammar.Definition
import Constituency.Parsing

/-!
Events: what the library notes about its work, in the order in which the work is done. The events
of an operation are a function of its input, and read off its result.
-/
namespace Constituency

inductive Level where
  | warn | debug | trace
  deriving DecidableEq, Repr

def Level.render : Level → String
  | .warn => "WARN"
  | .debug => "DEBUG"
  | .trace => "TRACE"

inductive Event where
  | startWithoutProductions (start : Symbol)
  | builtGrammar (productions terminals nonterminals : Nat)
  | loadedDefinition (start : Symbol) (productions : Nat)
  | converted (before after introduced : Nat)
  | notWeakNormal
  | unknownToken (token : String) (position : Nat)
  | filledCell (i j entries : Nat)
  | recognized (tokens : Nat) (outcome : Outcome)
  | filledChart (tokens entries : Nat)
  deriving DecidableEq, Repr

namespace Event

def level : Event → Level
  | .startWithoutProductions _ | .notWeakNormal => .warn
  | .filledCell _ _ _ => .trace
  | _ => .debug

def text : Event → String
  | .startWithoutProductions _ => "start symbol has no productions, every sentence will be rejected"
  | .builtGrammar _ _ _ => "built grammar"
  | .loadedDefinition _ _ => "loaded grammar definition"
  | .converted _ _ _ => "converted grammar to weak CNF"
  | .notWeakNormal => "grammar is not in weak CNF, some of its productions will never apply"
  | .unknownToken _ _ => "token is not part of the lexicon"
  | .filledCell _ _ _ => "filled cell"
  | .recognized _ _ => "recognized"
  | .filledChart _ _ => "filled chart"

/-- The details of an event by name. -/
def fields : Event → List (String × String)
  | .startWithoutProductions start => [("start", start)]
  | .builtGrammar productions terminals nonterminals =>
    [("productions", toString productions), ("terminals", toString terminals),
     ("nonterminals", toString nonterminals)]
  | .loadedDefinition start productions =>
    [("start", start), ("productions", toString productions)]
  | .converted before after introduced =>
    [("before", toString before), ("after", toString after), ("introduced", toString introduced)]
  | .notWeakNormal => []
  | .unknownToken token position => [("token", token), ("position", toString position)]
  | .filledCell i j entries => [("i", toString i), ("j", toString j), ("entries", toString entries)]
  | .recognized tokens outcome => [("tokens", toString tokens), ("outcome", outcome.render)]
  | .filledChart tokens entries => [("tokens", toString tokens), ("entries", toString entries)]

def renderFields : List (String × String) → String
  | [] => ""
  | f :: rest => " " ++ f.1 ++ "=" ++ f.2 ++ renderFields rest

def render (e : Event) : String := e.level.render ++ " " ++ e.text ++ renderFields e.fields

end Event

namespace Grammar

/-- The events of building this grammar. -/
def builtEvents (g : Grammar) : List Event :=
  (if g.isNonterminal g.start then [] else [.startWithoutProductions g.start]) ++
    [.builtGrammar g.size g.terminals.length g.nonterminals.length]

/-- The events of building a grammar from these productions, even from none. -/
def buildEvents (start : Symbol) (productions : List Production) : List Event :=
  (ofProductions start productions).builtEvents

/-- The events of loading a text. A text that does not read as a definition has none. -/
def loadEvents (text : String) : List Event :=
  match Definition.read text with
  | .error _ => []
  | .ok d =>
    match d.startSymbol with
    | none => []
    | some start =>
      .loadedDefinition start d.productions.length :: buildEvents start d.productions

/-- The events of filling a table with this kind of cells. -/
def fillEvents (κ : Type) [Cell κ] (g : Grammar) (tokens : List String) : List Event :=
  (if g.isWeakNormal then [] else [.notWeakNormal]) ++
    match SpanTable.fill κ g tokens with
    | .error e => [.unknownToken e.token e.position]
    | .ok table =>
      (SpanTable.spans tokens.length).map fun s =>
        .filledCell s.1 s.2 (Cell.size (table.get s.1 s.2))

/-- The events of recognizing a sentence. -/
def recognizeEvents (g : Grammar) (tokens : List String) : List Event :=
  g.fillEvents SymbolSet tokens ++ [.recognized tokens.length (g.recognize tokens)]

/-- The events of parsing a sentence. -/
def parseEvents (g : Grammar) (tokens : List String) : List Event :=
  g.fillEvents (List Entry) tokens ++
    match g.chart tokens with
    | .error _ => []
    | .ok chart => [.filledChart tokens.length chart.entryCount]

end Grammar

/-- The events of a conversion. -/
def Conversion.events (c : Conversion) : List Event :=
  c.grammar.builtEvents ++
    [.converted c.source.size c.grammar.size
      (c.grammar.nonterminals.length - c.source.nonterminals.length)]

end Constituency
