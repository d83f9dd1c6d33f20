import Constituency.SymbolSet

/-!
Recognition: whether a sentence belongs to a grammar. It does when the start symbol is in the cell
over the whole sentence, and the empty sentence never does.
-/
namespace Constituency

/-- What a grammar says about a sentence. -/
inductive Outcome where
  | accepted
  | rejected
  | unknownToken (token : String)
  deriving DecidableEq, Repr

namespace Outcome

def isAccepted : Outcome → Bool
  | .accepted => true
  | _ => false

def render : Outcome → String
  | .accepted => "accepted"
  | .rejected => "rejected"
  | .unknownToken token => "token \"" ++ token ++ "\" is not part of the lexicon"

end Outcome

/-- Whether a sentence belongs to the grammar, without any tree. -/
def Grammar.recognize (g : Grammar) (tokens : List String) : Outcome :=
  match SpanTable.fill SymbolSet g tokens with
  | .error e => .unknownToken e.token
  | .ok table =>
    if !tokens.isEmpty && (table.get 0 tokens.length).contains g.start then .accepted else .rejected

end Constituency
