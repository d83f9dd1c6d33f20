import Constituency.SpanTable
import Constituency.Tree.Basic
import Constituency.UnitClosure

/-!
Chart entries. An entry is a symbol over a span with the way it was built: over a token, over one
entry of the same cell, or over two entries of adjacent cells. A cell lists its entries in the order
in which they were added.
-/
namespace Constituency

/-- The entry at position `idx` of the cell for `row..col`. -/
structure EntryRef where
  row : Nat
  col : Nat
  idx : Nat
  deriving DecidableEq, Repr

namespace EntryRef

def span (r : EntryRef) : Span := ⟨r.row, r.col⟩

def width (r : EntryRef) : Nat := r.col - r.row

/-- Over fewer tokens, or earlier over as many. -/
def Precedes (child parent : EntryRef) : Prop :=
  child.width < parent.width ∨ (child.width = parent.width ∧ child.idx < parent.idx)

instance (child parent : EntryRef) : Decidable (child.Precedes parent) :=
  inferInstanceAs (Decidable (_ ∨ _))

def render (r : EntryRef) : String := r.span.render ++ "#" ++ toString r.idx

end EntryRef

/-- How an entry was built. -/
inductive Derivation where
  | leaf
  | unit (child : EntryRef)
  | binary (left right : EntryRef)
  deriving DecidableEq, Repr

structure Entry where
  symbol : Symbol
  derivation : Derivation
  deriving DecidableEq, Repr

namespace Entry

def render (e : Entry) : String :=
  match e.derivation with
  | .leaf => e.symbol ++ " -> ・"
  | .unit child => e.symbol ++ " -> " ++ child.render
  | .binary left right => e.symbol ++ " -> " ++ left.render ++ " " ++ right.render

/-- The entries over a token. -/
def leaves (ps : List Production) : List Entry := ps.map fun p => ⟨p.lhs, .leaf⟩

/-- The entries of `i..j` over an entry of `i..k` and one of `k..j`. -/
def pairs (g : Grammar) (i k j : Nat) (left right : List Entry) : List Entry :=
  left.zipIdx.flatMap fun b =>
    right.zipIdx.flatMap fun c =>
      (g.byRhsKey (rhsKey [b.1.symbol, c.1.symbol])).map fun p =>
        ⟨p.lhs, .binary ⟨i, k, b.2⟩ ⟨k, j, c.2⟩⟩

/-- The entries over one entry of the same cell. Each entry that is there before has a lane of its
own, so it reaches every symbol at most once. -/
def units (g : Grammar) (i j : Nat) (cell : List Entry) : List Entry :=
  (UnitClosure.close g cell.length (cell.zipIdx.map fun e => (e.1.symbol, e.2))).filterMap
    fun item => item.via.map fun idx => ⟨item.symbol, .unit ⟨i, j, idx⟩⟩

end Entry

instance : Cell (List Entry) where
  seed := Entry.leaves
  combine g i k j left right cell := cell ++ Entry.pairs g i k j left right
  close g i j cell := cell ++ Entry.units g i j cell
  size := List.length

end Constituency
