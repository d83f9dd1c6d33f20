/-!
Paths cut at their slashes. Slashes side by side count once, so a path is its parts, where it
starts, and whether a slash ends it.
-/
namespace Constituency.CommandLine

structure Path where
  /-- A slash comes first. -/
  rooted : Bool
  /-- What stands between the slashes, without empty parts. -/
  parts : List String
  /-- A slash comes last. -/
  slashed : Bool
  deriving DecidableEq, Repr

namespace Path

/-- A path has fewer bytes than this. -/
def sizeLimit : Nat := 4096

/-- A part of a path has at most so many bytes. -/
def partLimit : Nat := 255

def ofText (text : String) : Path where
  rooted := text.toList.head? = some '/'
  parts := ((text.toList.splitOnP (· = '/')).filter (· ≠ [])).map String.ofList
  slashed := text.toList.getLast? = some '/'

end Path

end Constituency.CommandLine
