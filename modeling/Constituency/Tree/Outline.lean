import Constituency.Text.Line
import Constituency.Tree.Basic

/-!
Outlines. A tree is written with the spans of its nodes, each child on lines of its own, two
columns further in than its parent. An only child stays on its parent's line.
-/
namespace Constituency

/-- A node's span and what it carries. -/
def Span.tag (s : Span) (text : String) : String := s.render ++ ": " ++ text

namespace Outline

/-- Lines, each on a new line and two columns in. -/
def indentLines : List (List Char) → String
  | [] => ""
  | line :: rest => "\n  " ++ String.ofList line ++ indentLines rest

/-- A text moved in by two columns, below what stands before it. -/
def indent (text : String) : String := indentLines (Text.lines text.toList)

def indentAll : List String → String
  | [] => ""
  | text :: rest => indent text ++ indentAll rest

/-- The outline of a branch, from its tag and the outlines of its children. -/
def branch (tag : String) : List String → String
  | [only] => "(" ++ tag ++ " (" ++ only ++ "))"
  | texts => "(" ++ tag ++ indentAll texts ++ ")"

end Outline

namespace SyntaxTree

/-- The span of the root and what the root carries. -/
def tag : Tree → String
  | .leaf w s => s.tag w
  | .branch l s _ => s.tag l

mutual

def outline : Tree → String
  | .leaf w s => s.tag w
  | .branch l s ts => Outline.branch (s.tag l) (outlines ts)

def outlines : List Tree → List String
  | [] => []
  | t :: ts => outline t :: outlines ts

end

end SyntaxTree

end Constituency
