import Constituency.Grammar.Definition

/-!
Changing a grammar. A change builds a grammar anew from changed parts, so repetitions are dropped
again, and the change fails if no production is left.
-/
namespace Constituency.Grammar

def withStart (g : Grammar) (start : Symbol) : Except DefinitionError Grammar :=
  build start g.productions

/-- More productions after the present ones. -/
def append (g : Grammar) (ps : List Production) : Except DefinitionError Grammar :=
  build g.start (g.productions ++ ps)

/-- More productions before the present ones. -/
def prepend (g : Grammar) (ps : List Production) : Except DefinitionError Grammar :=
  build g.start (ps ++ g.productions)

/-- The grammar without the productions of a symbol. -/
def without (g : Grammar) (lhs : Symbol) : Except DefinitionError Grammar :=
  build g.start (g.productions.filter fun p => p.lhs ≠ lhs)

def reverse (g : Grammar) : Except DefinitionError Grammar :=
  build g.start g.productions.reverse

/-- The grammar that the written form defines. -/
def reload (g : Grammar) : Except DefinitionError Grammar := load g.render

end Constituency.Grammar
