import Constituency.Grammar.Basic

/-!
Names for introduced symbols. A naming remembers which sequence of symbols each introduced symbol
stands for. A sequence asks for the name it would like, and the name is marked until it is free: no
symbol of the grammar, not introduced for another sequence, and nothing that a definition would
read differently at the start of a line.
-/
namespace Constituency

/-- Introduced symbols with the sequences they stand for. -/
abbrev Naming := List (Symbol × List Symbol)

namespace Naming

/-- A line that opens with such a word is no rule for it. -/
def isReserved (name : Symbol) : Bool :=
  name.isEmpty || name.toList.head? = some '#' || name.toList.contains '|' ||
    name == "%start" || name == "->"

/-- A name changed once to be free. -/
def mark (name : Symbol) : Symbol := "DUMMY_" ++ name

/-- The name can stand for these parts. -/
def admits (n : Naming) (g : Grammar) (parts : List Symbol) (name : Symbol) : Bool :=
  !isReserved name && !g.isSymbol name &&
    match n.lookup name with
    | none => true
    | some known => known == parts

/-- The first admitted name among the given number of ever more marked ones, or the one after
them. -/
def search (n : Naming) (g : Grammar) (parts : List Symbol) : Nat → Symbol → Symbol
  | 0, name => name
  | tries + 1, name => if n.admits g parts name then name else n.search g parts tries (mark name)

/-- More tries than there are names in the way. Each symbol of the grammar and each introduced
symbol blocks one name, and marking once clears every reserved form without a bar. -/
def tries (n : Naming) (g : Grammar) : Nat :=
  n.length + (g.productions.flatMap fun p => p.lhs :: p.rhs).length + 2

/-- The name of a sequence of symbols, and the naming that knows it. -/
def name (n : Naming) (g : Grammar) (wish : Symbol) (parts : List Symbol) : Symbol × Naming :=
  let found := n.search g parts (n.tries g) wish
  match n.lookup found with
  | some _ => (found, n)
  | none => (found, (found, parts) :: n)

end Naming

end Constituency
