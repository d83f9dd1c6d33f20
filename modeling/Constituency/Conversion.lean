import Constituency.Naming

/-!
Conversion to weak normal form, in which a production has one symbol or two nonterminals on its
right. A longer right-hand side becomes a chain of binary productions, from the top down, over
compound symbols that each stand for all but the last of what they divide. Terminals in a
right-hand side of two or more symbols are first put behind symbols of their own.
-/
namespace Constituency

/-- A converted grammar, beside the grammar it came from. -/
structure Conversion where
  source : Grammar
  grammar : Grammar

namespace Conversion

/-- The symbol belongs to the source, so the conversion did not introduce it. -/
def keeps (c : Conversion) (s : Symbol) : Bool := c.source.isSymbol s

/-- Puts every terminal of a right-hand side behind a symbol of its own. Gives the productions of
these symbols, the new right-hand side, and the naming. -/
def isolate (g : Grammar) : List Symbol → Naming → List Production × List Symbol × Naming
  | [], n => ([], [], n)
  | s :: rest, n =>
    if g.isTerminal s then
      let (dummy, n) := n.name g (unquote s) [s]
      let (ps, rhs, n) := isolate g rest n
      (⟨dummy, [s]⟩ :: ps, dummy :: rhs, n)
    else
      let (ps, rhs, n) := isolate g rest n
      (ps, s :: rhs, n)

/-- The binary chain from `lhs` to a right-hand side that is given last symbol first. -/
def chain (g : Grammar) (lhs : Symbol) : List Symbol → Naming → List Production × Naming
  | last :: c :: b :: rest, n =>
    let parts := (c :: b :: rest).reverse
    let (compound, n) := n.name g (joinWith "+" parts) parts
    let (ps, n) := chain g compound (c :: b :: rest) n
    (⟨lhs, [compound, last]⟩ :: ps, n)
  | rhs, n => ([⟨lhs, rhs.reverse⟩], n)

/-- The productions that replace one production. -/
def divide (g : Grammar) (p : Production) (n : Naming) : List Production × Naming :=
  if p.size < 2 then ([p], n)
  else
    let (dummies, rhs, n) := isolate g p.rhs n
    let (ps, n) := chain g p.lhs rhs.reverse n
    (dummies ++ ps, n)

/-- Divides productions in order, under one naming. -/
def divideAll (g : Grammar) : List Production → Naming → List Production × Naming
  | [], n => ([], n)
  | p :: rest, n =>
    let (ps, n) := divide g p n
    let (qs, n) := divideAll g rest n
    (ps ++ qs, n)

end Conversion

/-- The grammar in weak normal form, with the same start symbol. -/
def Grammar.toWeakNormal (g : Grammar) : Conversion where
  source := g
  grammar := .ofProductions g.start (Conversion.divideAll g g.productions []).1

end Constituency
