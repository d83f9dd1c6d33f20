import Constituency.Production

/-!
Context-free grammars. A grammar is a start symbol and a list of distinct productions, whose order
decides the order of ambiguous parses. Everything else a grammar carries is determined by these
two: its indices by either side and its nonterminals, so grammars with equal start symbols and
equal productions are equal.
-/
namespace Constituency

structure Grammar where
  start : Symbol
  productions : List Production
  nodup : productions.Nodup
  lhsIndex : Index
  lhsIndex_eq : lhsIndex = Index.build Production.lhs productions
  rhsIndex : Index
  rhsIndex_eq : rhsIndex = Index.build Production.key productions
  nonterminals : List Symbol
  nonterminals_eq : nonterminals = (productions.map Production.lhs).eraseDups

/-- Removing repetitions leaves no repetition. -/
theorem nodup_eraseDups {α : Type} [DecidableEq α] (xs : List α) : xs.eraseDups.Nodup := by
  induction h : xs.length using Nat.strongRecOn generalizing xs with
  | ind n ih =>
    cases xs with
    | nil => simp
    | cons x xs =>
      rw [List.eraseDups_cons, List.nodup_cons]
      refine ⟨by simp [List.mem_eraseDups], ih _ ?_ _ rfl⟩
      have := List.length_filter_le (fun y => !y == x) xs
      simp only [List.length_cons] at h
      omega

/-- There is nothing to remove where nothing is repeated. -/
theorem eraseDups_of_nodup {α : Type} [DecidableEq α] {xs : List α} (h : xs.Nodup) :
    xs.eraseDups = xs := by
  induction xs with
  | nil => rfl
  | cons x xs ih =>
    rw [List.nodup_cons] at h
    have hx : (xs.filter fun y => !y == x) = xs := by
      rw [List.filter_eq_self]
      intro y hy
      have hne : y ≠ x := fun e => h.1 (e ▸ hy)
      simpa using hne
    rw [List.eraseDups_cons, hx, ih h.2]

/-- Removing repetitions leaves the order of what is selected. -/
theorem filter_eraseDups {α : Type} [DecidableEq α] (p : α → Bool) (xs : List α) :
    xs.eraseDups.filter p = (xs.filter p).eraseDups := by
  induction h : xs.length using Nat.strongRecOn generalizing xs with
  | ind n ih =>
    cases xs with
    | nil => rfl
    | cons x xs =>
      have hlength := List.length_filter_le (fun y => !y == x) xs
      rw [List.length_cons] at h
      have hrest := ih _ (by omega) (xs.filter fun y => !y == x) rfl
      rw [List.eraseDups_cons]
      by_cases hp : p x = true
      · rw [List.filter_cons_of_pos hp, List.filter_cons_of_pos hp, List.eraseDups_cons, hrest,
          List.filter_filter, List.filter_filter]
        simp only [Bool.and_comm]
      · rw [List.filter_cons_of_neg hp, List.filter_cons_of_neg hp, hrest, List.filter_filter]
        congr 1
        apply List.filter_congr
        intro y _
        by_cases hy : y = x
        · simp [hy, hp]
        · simp [hy]

namespace Grammar

theorem ext_start_productions {g h : Grammar} (hs : g.start = h.start)
    (hp : g.productions = h.productions) : g = h := by
  obtain ⟨gs, gp, _, gl, hl, gr, hr, gn, hn⟩ := g
  obtain ⟨s, p, _, l, hl', r, hr', n, hn'⟩ := h
  simp only at hs hp
  subst hs hp hl hr hn hl' hr' hn'
  rfl

instance : DecidableEq Grammar := fun g h =>
  if e : g.start = h.start ∧ g.productions = h.productions then
    isTrue (ext_start_productions e.1 e.2)
  else isFalse fun gh => e ⟨gh ▸ rfl, gh ▸ rfl⟩

/-- The grammar of a start symbol and productions. Of equal productions the first one stays. -/
def ofProductions (start : Symbol) (productions : List Production) : Grammar where
  start
  productions := productions.eraseDups
  nodup := nodup_eraseDups productions
  lhsIndex := Index.build Production.lhs productions.eraseDups
  lhsIndex_eq := rfl
  rhsIndex := Index.build Production.key productions.eraseDups
  rhsIndex_eq := rfl
  nonterminals := (productions.eraseDups.map Production.lhs).eraseDups
  nonterminals_eq := rfl

@[simp] theorem start_ofProductions (s : Symbol) (ps : List Production) :
    (ofProductions s ps).start = s := rfl
@[simp] theorem productions_ofProductions (s : Symbol) (ps : List Production) :
    (ofProductions s ps).productions = ps.eraseDups := rfl

theorem mem_productions_ofProductions {s : Symbol} {ps : List Production} {p : Production} :
    p ∈ (ofProductions s ps).productions ↔ p ∈ ps := by
  rw [productions_ofProductions, List.mem_eraseDups]

/-- A grammar is the grammar of its own productions. -/
theorem ofProductions_productions (g : Grammar) : ofProductions g.start g.productions = g :=
  ext_start_productions rfl (eraseDups_of_nodup g.nodup)

def size (g : Grammar) : Nat := g.productions.length
def isEmpty (g : Grammar) : Bool := g.size == 0

/-- The productions of a symbol, in grammar order. -/
def byLhs (g : Grammar) (lhs : Symbol) : List Production := g.lhsIndex.find lhs

/-- The productions whose right-hand side has this key, in grammar order. -/
def byRhsKey (g : Grammar) (key : String) : List Production := g.rhsIndex.find key

/-- The productions found under the key of this right-hand side, in grammar order. -/
def byRhs (g : Grammar) (rhs : List Symbol) : List Production := g.byRhsKey (rhsKey rhs)

theorem byLhs_eq_filter (g : Grammar) (lhs : Symbol) :
    g.byLhs lhs = g.productions.filter fun p => p.lhs = lhs := by
  simp [byLhs, g.lhsIndex_eq]

theorem byRhsKey_eq_filter (g : Grammar) (key : String) :
    g.byRhsKey key = g.productions.filter fun p => p.key = key := by
  simp [byRhsKey, g.rhsIndex_eq]

theorem mem_byRhsKey {g : Grammar} {key : String} {p : Production} :
    p ∈ g.byRhsKey key ↔ p ∈ g.productions ∧ p.key = key := by
  simp [byRhsKey_eq_filter]

/-- A nonterminal is the left-hand side of some production. -/
def isNonterminal (g : Grammar) (s : Symbol) : Bool := !(g.byLhs s).isEmpty

theorem isNonterminal_iff {g : Grammar} {s : Symbol} :
    g.isNonterminal s = true ↔ ∃ p ∈ g.productions, p.lhs = s := by
  simp [isNonterminal, byLhs_eq_filter]

theorem mem_nonterminals {g : Grammar} {s : Symbol} :
    s ∈ g.nonterminals ↔ ∃ p ∈ g.productions, p.lhs = s := by
  simp [g.nonterminals_eq, List.mem_eraseDups]

theorem nodup_nonterminals (g : Grammar) : g.nonterminals.Nodup := by
  rw [g.nonterminals_eq]
  exact nodup_eraseDups _

/-- The symbol stands in some right-hand side. -/
def occursRight (g : Grammar) (s : Symbol) : Bool := g.productions.any fun p => p.rhs.contains s

/-- A terminal stands in a right-hand side and is no left-hand side. -/
def isTerminal (g : Grammar) (s : Symbol) : Bool := !g.isNonterminal s && g.occursRight s

/-- The symbol stands on either side of some production. -/
def isSymbol (g : Grammar) (s : Symbol) : Bool := g.isNonterminal s || g.occursRight s

theorem occursRight_iff {g : Grammar} {s : Symbol} :
    g.occursRight s = true ↔ ∃ p ∈ g.productions, s ∈ p.rhs := by
  simp [occursRight]

theorem isTerminal_iff {g : Grammar} {s : Symbol} :
    g.isTerminal s = true ↔ g.isNonterminal s = false ∧ g.occursRight s = true := by
  simp [isTerminal]

theorem isSymbol_iff {g : Grammar} {s : Symbol} :
    g.isSymbol s = true ↔ g.isNonterminal s = true ∨ g.occursRight s = true := by
  simp [isSymbol]

def terminals (g : Grammar) : List Symbol :=
  (g.productions.flatMap Production.rhs).eraseDups.filter fun s => !g.isNonterminal s

def symbols (g : Grammar) : List Symbol := g.terminals ++ g.nonterminals

theorem mem_terminals {g : Grammar} {s : Symbol} : s ∈ g.terminals ↔ g.isTerminal s = true := by
  simp [terminals, isTerminal, occursRight, List.mem_eraseDups, and_comm]

theorem mem_symbols {g : Grammar} {s : Symbol} : s ∈ g.symbols ↔ g.isSymbol s = true := by
  simp only [symbols, List.mem_append, mem_terminals, mem_nonterminals, ← isNonterminal_iff,
    isTerminal, isSymbol]
  cases g.isNonterminal s <;> simp

/-- One symbol of any kind, or two nonterminals. -/
def allowsShape (g : Grammar) (p : Production) : Bool :=
  p.isUnary || (p.isBinary && p.rhs.all g.isNonterminal)

theorem allowsShape_iff {g : Grammar} {p : Production} : g.allowsShape p = true ↔
    (∃ s, p.rhs = [s]) ∨
      ∃ b c, p.rhs = [b, c] ∧ g.isNonterminal b = true ∧ g.isNonterminal c = true := by
  obtain ⟨lhs, rhs⟩ := p
  simp only [allowsShape, Production.isUnary, Production.isBinary, Production.size]
  match rhs with
  | [] => simp
  | [_] => simp
  | [_, _] => simp [and_assoc]
  | _ :: _ :: _ :: _ => simp

theorem rhs_ne_nil_of_allowsShape {g : Grammar} {p : Production} (h : g.allowsShape p = true) :
    p.rhs ≠ [] := by
  obtain ⟨s, hrhs⟩ | ⟨b, c, hrhs, -⟩ := allowsShape_iff.mp h <;> simp [hrhs]

/-- Every production has a shape that a span table can apply. -/
def isWeakNormal (g : Grammar) : Bool := g.productions.all g.allowsShape

/-- Productions, one to a line. -/
def renderProductions : List Production → String
  | [] => ""
  | p :: rest => p.render ++ "\n" ++ renderProductions rest

/-- The grammar as a definition: a line for the start symbol, then one for each production. -/
def render (g : Grammar) : String := "%start " ++ g.start ++ "\n" ++ renderProductions g.productions

end Grammar

end Constituency
