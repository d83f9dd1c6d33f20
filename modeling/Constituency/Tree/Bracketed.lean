import Constituency.Text.Blank
import Constituency.Tree.Basic

/-!
Bracketed trees. A leaf is its word; a branch is its label and its children between brackets, with
spaces around every item. Reading takes the words of a text one after the other and keeps the
branches that are still open, innermost first. A lone bracket is never a label or a word. The
leaves are numbered from the left, and a branch spans its leaves.
-/
namespace Constituency

namespace SyntaxTree

mutual

def bracketed : Tree → String
  | .leaf w _ => w
  | .branch l _ ts => "( " ++ l ++ bracketedAll ts ++ " )"

/-- Trees with a space before each. -/
def bracketedAll : List Tree → String
  | [] => ""
  | t :: ts => " " ++ bracketed t ++ bracketedAll ts

end

end SyntaxTree

/-- Why a text is no bracketed tree. -/
inductive BracketError where
  | unexpectedEnd
  | unexpected (token : String) (position : Nat)
  | emptyNode (label : String)
  | trailing (token : String)
  deriving DecidableEq, Repr

def BracketError.message : BracketError → String
  | .unexpectedEnd => "unexpected end of input"
  | .unexpected token position =>
    "unexpected `" ++ token ++ "` at token " ++ toString position
  | .emptyNode label => "node `" ++ label ++ "` has no children"
  | .trailing token => "trailing input starting with `" ++ token ++ "`"

namespace Bracketed

/-- A branch whose closing bracket is still to come: the number of leaves before it, and its
children so far, last one first. -/
structure Frame where
  label : Symbol
  first : Nat
  children : List Tree

/-- What the words so far amount to. -/
inductive Stage where
  | start
  | opened (frames : List Frame)
  | inside (frame : Frame) (frames : List Frame)
  | done (tree : Tree)

structure Reader where
  stage : Stage
  leaves : Nat

def Reader.initial : Reader := ⟨.start, 0⟩

/-- Hands a finished tree to the innermost open branch. -/
def place (tree : Tree) : List Frame → Stage
  | [] => .done tree
  | f :: fs => .inside { f with children := tree :: f.children } fs

/-- The branch of a frame, once the given number of leaves has been read. -/
def Frame.close (f : Frame) (leaves : Nat) : Tree :=
  .branch f.label ⟨f.first, leaves⟩ f.children.reverse

/-- The next leaf. -/
def Reader.leaf (r : Reader) (word : String) : Tree := .leaf word ⟨r.leaves, r.leaves + 1⟩

/-- Takes the token at the given position. -/
def Reader.step (r : Reader) (position : Nat) (token : String) : Except BracketError Reader :=
  match r.stage with
  | .done _ => .error (.trailing token)
  | .start =>
    if token = "(" then .ok ⟨.opened [], r.leaves⟩
    else if token = ")" then .error (.unexpected token position)
    else .ok ⟨.done (r.leaf token), r.leaves + 1⟩
  | .opened frames =>
    if token = "(" ∨ token = ")" then .error (.unexpected token position)
    else .ok ⟨.inside ⟨token, r.leaves, []⟩ frames, r.leaves⟩
  | .inside frame frames =>
    if token = "(" then .ok ⟨.opened (frame :: frames), r.leaves⟩
    else if token = ")" then
      if frame.children.isEmpty then .error (.emptyNode frame.label)
      else .ok ⟨place (frame.close r.leaves) frames, r.leaves⟩
    else .ok ⟨place (r.leaf token) (frame :: frames), r.leaves + 1⟩

/-- Takes tokens in order, the first of which has the given position. -/
def Reader.run (r : Reader) (position : Nat) : List String → Except BracketError Reader
  | [] => .ok r
  | token :: rest =>
    match r.step position token with
    | .error e => .error e
    | .ok r => r.run (position + 1) rest

/-- The tree, if its last bracket has been read. -/
def Reader.finish (r : Reader) : Except BracketError Tree :=
  match r.stage with
  | .done tree => .ok tree
  | _ => .error .unexpectedEnd

/-- Reads the tokens of a bracketed tree. -/
def readTokens (tokens : List String) : Except BracketError Tree :=
  match Reader.initial.run 0 tokens with
  | .error e => .error e
  | .ok r => r.finish

/-- Reads a bracketed tree. -/
def read (text : String) : Except BracketError Tree := readTokens (Text.wordsOf text)

end Bracketed

end Constituency
