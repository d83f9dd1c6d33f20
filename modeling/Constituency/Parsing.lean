import Constituency.Chart.Basic
import Constituency.Conversion
import Constituency.Recognition
import Constituency.Tree.Flatten

/-!
Parsing a sentence into all its trees, with a grammar as it is or with its conversion. A conversion
takes the symbols it introduced out of its trees again.
-/
namespace Constituency

/-- The trees of a sentence, and what they say about it. -/
structure Parse where
  trees : List Tree
  outcome : Outcome
  deriving DecidableEq

namespace Grammar

def parse (g : Grammar) (tokens : List String) : Parse :=
  match g.chart tokens with
  | .error e => ⟨[], .unknownToken e.token⟩
  | .ok chart =>
    let trees := chart.trees g.start
    ⟨trees, if trees.isEmpty then .rejected else .accepted⟩

end Grammar

namespace Conversion

def recognize (c : Conversion) (tokens : List String) : Outcome := c.grammar.recognize tokens

def parse (c : Conversion) (tokens : List String) : Parse :=
  let raw := c.grammar.parse tokens
  { raw with trees := raw.trees.map (SyntaxTree.flatten c.keeps) }

end Conversion

end Constituency
