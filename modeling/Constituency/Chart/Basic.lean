import Constituency.Chart.Entry
import Constituency.Tree.Basic

/-!
Charts: filled span tables from which trees can be read. Every entry refers only to entries that
precede it, so following the references ends.
-/
namespace Constituency

structure Chart where
  tokens : List String
  cells : Grid (List Entry)

/-- Why a place in a chart has nothing to give. -/
inductive LookupError where
  | noCell (row col : Nat)
  | noEntry (size idx : Nat)
  | outOfOrder (child : EntryRef)
  deriving DecidableEq, Repr

def LookupError.message : LookupError → String
  | .noCell row col => "no cell for span " ++ (Span.mk row col).render
  | .noEntry size idx =>
    "index out of bounds: the len is " ++ toString size ++ " but the index is " ++ toString idx
  | .outOfOrder child => "entry " ++ child.render ++ " does not precede its parent"

namespace Chart

/-- The number of tokens. -/
def size (c : Chart) : Nat := c.tokens.length

def isEmpty (c : Chart) : Bool := c.size == 0

/-- The entries over `i..j`. -/
def cell (c : Chart) (i j : Nat) : Except LookupError (List Entry) :=
  if i < j ∧ j ≤ c.size then .ok (c.cells.get i j) else .error (.noCell i j)

/-- The entry at a place. -/
def get (c : Chart) (r : EntryRef) : Except LookupError Entry :=
  match c.cell r.row r.col with
  | .error e => .error e
  | .ok entries =>
    match entries[r.idx]? with
    | none => .error (.noEntry entries.length r.idx)
    | some entry => .ok entry

/-- The entries over the whole input. -/
def whole (c : Chart) : List Entry := if c.isEmpty then [] else c.cells.get 0 c.size

/-- Where the whole input has this symbol, in the order of the cell. -/
def roots (c : Chart) (s : Symbol) : List EntryRef :=
  c.whole.zipIdx.filterMap fun e => if e.1.symbol = s then some ⟨0, c.size, e.2⟩ else none

def accepts (c : Chart) (s : Symbol) : Bool := !(c.roots s).isEmpty

/-- The tree below an entry. -/
def tree (c : Chart) (r : EntryRef) : Except LookupError Tree := do
  let entry ← c.get r
  match entry.derivation with
  | .leaf =>
    return .branch entry.symbol r.span [.leaf (c.tokens.getD r.row "") r.span]
  | .unit child =>
    if child.Precedes r then
      return .branch entry.symbol r.span [← c.tree child]
    else throw (.outOfOrder child)
  | .binary left right =>
    if left.Precedes r then
      if right.Precedes r then
        return .branch entry.symbol r.span [← c.tree left, ← c.tree right]
      else throw (.outOfOrder right)
    else throw (.outOfOrder left)
termination_by (r.width, r.idx)
decreasing_by
  all_goals
    simp only [EntryRef.Precedes] at *
    simp only [Prod.lex_def]
    omega

/-- The trees over the whole input with this symbol, in the order of their roots. -/
def trees (c : Chart) (s : Symbol) : List Tree := (c.roots s).filterMap fun r => (c.tree r).toOption

/-- The number of entries in all cells. -/
def entryCount (c : Chart) : Nat :=
  ((SpanTable.spans c.size).flatMap fun s => c.cells.get s.1 s.2).length

/-- Entries with their positions, one to a line. -/
def renderEntries : List (Entry × Nat) → String
  | [] => ""
  | e :: rest => "  #" ++ toString e.2 ++ " " ++ e.1.render ++ "\n" ++ renderEntries rest

/-- A cell with a heading; an empty cell is left out. -/
def renderCell (span : Span) (entries : List Entry) : String :=
  if entries.isEmpty then "" else "Span " ++ span.render ++ ":\n" ++ renderEntries entries.zipIdx

/-- The spans by width, then by position. -/
def spansByWidth (n : Nat) : List Span :=
  (List.range n).flatMap fun w => (List.range (n - w)).map fun i => ⟨i, i + w + 1⟩

def renderSpans (c : Chart) : List Span → String
  | [] => ""
  | s :: rest => renderCell s (c.cells.get s.start s.stop) ++ renderSpans c rest

def render (c : Chart) : String := c.renderSpans (spansByWidth c.size)

end Chart

/-- The chart of a sentence, or its first unknown token. -/
def Grammar.chart (g : Grammar) (tokens : List String) : Except UnknownToken Chart :=
  (SpanTable.fill (List Entry) g tokens).map fun cells => ⟨tokens, cells⟩

end Constituency
