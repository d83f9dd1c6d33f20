/-!
Lines of a sequence. A line ends at a line feed, and one carriage return directly before that line
feed belongs to the ending. What follows the last line feed is a line of its own unless it is
empty, and keeps a carriage return at its end. The element type is open, because lines are cut
from characters and from bytes alike.
-/
namespace Constituency.Text

variable {α : Type}

/-- A sequence without one `x` at its end. -/
def dropTrailing [DecidableEq α] (x : α) (s : List α) : List α :=
  if s.getLast? = some x then s.dropLast else s

/-- From the stretches between line feeds to lines. -/
def linesOfStretches [DecidableEq α] (ret : α) : List (List α) → List (List α)
  | [] => []
  | [last] => if last.isEmpty then [] else [last]
  | s :: next :: rest => dropTrailing ret s :: linesOfStretches ret (next :: rest)

/-- The lines of a sequence, given its line feed and its carriage return. -/
def linesWith [DecidableEq α] (feed ret : α) (s : List α) : List (List α) :=
  linesOfStretches ret (s.splitOnP (· = feed))

/-- What stands before the first line feed is a line, up to a carriage return at its end. -/
theorem linesWith_append_cons [DecidableEq α] {feed : α} (ret : α) {s : List α} (hfeed : feed ∉ s)
    (t : List α) :
    linesWith feed ret (s ++ feed :: t) = dropTrailing ret s :: linesWith feed ret t := by
  have hone : s.splitOnP (· = feed) = [s] :=
    List.splitOnP_eq_singleton fun x hx => decide_eq_false fun h => hfeed (h ▸ hx)
  obtain ⟨next, rest, hrest⟩ := List.exists_cons_of_ne_nil (List.splitOnP_ne_nil (· = feed) t)
  rw [linesWith, linesWith, List.splitOnP_append_cons s t (by simp), hone, hrest,
    List.singleton_append, linesOfStretches]

/-- The lines of a text. -/
def lines (s : List Char) : List (List Char) := linesWith '\n' '\r' s

/-- The lines of a byte sequence. -/
def byteLines (s : List UInt8) : List (List UInt8) := linesWith 10 13 s

end Constituency.Text
