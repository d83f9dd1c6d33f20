import Std.Data.TreeMap
import Constituency.Symbol

/-!
Productions, and an index that finds them by a key. Looking a key up in an index is the same as
filtering the productions it was built from, in their order.
-/
namespace Constituency

/-- A rule by which a symbol may be replaced by a sequence of symbols. -/
structure Production where
  lhs : Symbol
  rhs : List Symbol
  deriving DecidableEq, Repr

namespace Production

def size (p : Production) : Nat := p.rhs.length
def isEmpty (p : Production) : Bool := p.size == 0
def isUnary (p : Production) : Bool := p.size == 1
def isBinary (p : Production) : Bool := p.size == 2

/-- The key under which the production is found by its right-hand side. -/
def key (p : Production) : String := rhsKey p.rhs

/-- Symbols with a space before each. -/
def renderRhs : List Symbol → String
  | [] => ""
  | s :: rest => " " ++ s ++ renderRhs rest

/-- The left-hand side, an arrow, and the right-hand side. -/
def render (p : Production) : String := p.lhs ++ " ->" ++ renderRhs p.rhs

end Production

/-- Productions grouped by a key. -/
structure Index where
  groups : Std.TreeMap String (List Production)

namespace Index

def empty : Index := ⟨∅⟩

/-- The group of a key, empty when the key is absent. -/
def find (index : Index) (key : String) : List Production := index.groups.getD key []

/-- Put a production in front of its group. -/
def add (index : Index) (key : String) (p : Production) : Index :=
  ⟨index.groups.insert key (p :: index.find key)⟩

/-- The index of a list of productions under a key function. -/
def build (key : Production → String) (ps : List Production) : Index :=
  ps.foldr (fun p index => index.add (key p) p) empty

@[simp] theorem find_empty (key : String) : empty.find key = [] := by simp [find, empty]

theorem find_add (index : Index) (k key : String) (p : Production) :
    (index.add k p).find key = if k = key then p :: index.find k else index.find key := by
  simp [find, add, Std.TreeMap.getD_insert]

/-- A look-up gives the productions with that key, in order. -/
@[simp] theorem find_build (key : Production → String) (ps : List Production) (k : String) :
    (build key ps).find k = ps.filter fun p => key p = k := by
  induction ps with
  | nil => simp [build]
  | cons p ps ih =>
    have hb : build key (p :: ps) = (build key ps).add (key p) p := rfl
    by_cases h : key p = k
    · subst h
      simp [hb, find_add, ih]
    · simp [hb, find_add, h, ih]

end Index

end Constituency
