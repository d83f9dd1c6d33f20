import Mathlib.Data.List.Induction
import Constituency.Proofs.Loading

/-!
What a grammar answers when it is asked. A grammar keeps an index by either side and its
nonterminals beside its productions. All of them say the same as the productions do: a look-up finds
the productions that a search through the list finds, in the same order, and a symbol is known when
some production has it.
-/
namespace Constituency

section Firsts

variable {α : Type} [DecidableEq α]

/-- The items that stand at no earlier place. -/
def firsts (xs : List α) : List α :=
  (xs.zipIdx.filter fun x => x.1 ∉ xs.take x.2).map Prod.fst

/-- One more item stays if it is new. -/
theorem firsts_concat (xs : List α) (x : α) :
    firsts (xs ++ [x]) = if x ∈ xs then firsts xs else firsts xs ++ [x] := by
  have hearlier : ((xs.zipIdx.filter fun y => y.1 ∉ (xs ++ [x]).take y.2)) =
      xs.zipIdx.filter fun y => y.1 ∉ xs.take y.2 := by
    refine List.filter_congr fun y hy => ?_
    rw [List.take_append_of_le_length (Nat.le_of_lt (by simpa using List.snd_lt_of_mem_zipIdx hy))]
  rw [firsts, List.zipIdx_append, List.filter_append, hearlier]
  by_cases h : x ∈ xs <;> simp [h, firsts]

theorem eraseDups_concat (xs : List α) (x : α) :
    (xs ++ [x]).eraseDups = if x ∈ xs then xs.eraseDups else xs.eraseDups ++ [x] := by
  rw [List.eraseDups_append]
  by_cases h : x ∈ xs <;> simp [h, List.removeAll, List.eraseDups_cons]

/-- Removing repetitions keeps the first of equal items where it stands. -/
theorem eraseDups_eq_firsts (xs : List α) : xs.eraseDups = firsts xs := by
  induction xs using List.reverseRecOn with
  | nil => rfl
  | append_singleton xs x ih => rw [eraseDups_concat, firsts_concat, ih]

end Firsts

namespace Grammar

variable {g h : Grammar}

/-- What is asked of a grammar agrees with the list of productions it was built from. -/
structure Matches (g : Grammar) (start : Symbol) (ps : List Production) : Prop where
  start : g.start = start
  productions : g.productions = firsts ps
  byLhs : ∀ lhs, g.byLhs lhs = g.productions.filter fun p => p.lhs = lhs
  byRhsKey : ∀ key, g.byRhsKey key = g.productions.filter fun p => rhsKey p.rhs = key
  nodup : g.terminals.Nodup ∧ g.nonterminals.Nodup
  disjoint : ∀ s ∈ g.terminals, s ∉ g.nonterminals
  union : ∀ s, s ∈ g.symbols ↔ s ∈ g.terminals ∨ s ∈ g.nonterminals
  occurs : ∀ s, s ∈ g.symbols ↔ ∃ p ∈ ps, s = p.lhs ∨ s ∈ p.rhs
  defines : ∀ s, s ∈ g.nonterminals ↔ ∃ p ∈ ps, s = p.lhs
  isTerminal : ∀ s, g.isTerminal s = true ↔ s ∈ g.terminals
  isNonterminal : ∀ s, g.isNonterminal s = true ↔ s ∈ g.nonterminals

theorem mem_nonterminals_iff {s : Symbol} : s ∈ g.nonterminals ↔ g.isNonterminal s = true := by
  rw [mem_nonterminals, isNonterminal_iff]

/-- The symbols are those on either side of a production. -/
theorem mem_symbols_iff {s : Symbol} :
    s ∈ g.symbols ↔ ∃ p ∈ g.productions, s = p.lhs ∨ s ∈ p.rhs := by
  rw [mem_symbols, isSymbol_iff, isNonterminal_iff, occursRight_iff, ← exists_or]
  refine exists_congr fun p => ?_
  rw [← and_or_left, eq_comm]

theorem nodup_terminals (g : Grammar) : g.terminals.Nodup := (nodup_eraseDups _).filter _

/-- Every grammar that is built matches what it is built from. -/
theorem matches_ofProductions (start : Symbol) (ps : List Production) :
    (ofProductions start ps).Matches start ps where
  start := rfl
  productions := eraseDups_eq_firsts ps
  byLhs := byLhs_eq_filter _
  byRhsKey := byRhsKey_eq_filter _
  nodup := ⟨nodup_terminals _, nodup_nonterminals _⟩
  disjoint := fun s hs hn => by
    rw [mem_terminals, isTerminal_iff] at hs
    rw [mem_nonterminals_iff, hs.1] at hn
    cases hn
  union := fun s => List.mem_append
  occurs := fun s => by simp only [mem_symbols_iff, mem_productions_ofProductions]
  defines := fun s => by simp only [mem_nonterminals, mem_productions_ofProductions, eq_comm]
  isTerminal := fun s => mem_terminals.symm
  isNonterminal := fun s => mem_nonterminals_iff.symm

/-- Two grammars answer every question alike. -/
structure Alike (g h : Grammar) : Prop where
  byLhs : ∀ lhs, g.byLhs lhs = h.byLhs lhs
  byRhsKey : ∀ key, g.byRhsKey key = h.byRhsKey key
  byRhs : ∀ rhs, g.byRhs rhs = h.byRhs rhs
  isTerminal : ∀ s, g.isTerminal s = h.isTerminal s
  isNonterminal : ∀ s, g.isNonterminal s = h.isNonterminal s
  terminals : g.terminals = h.terminals
  nonterminals : g.nonterminals = h.nonterminals
  symbols : g.symbols = h.symbols

/-- The answers are read off the productions, whatever the start symbols are. -/
theorem alike_of_productions (hp : g.productions = h.productions) : g.Alike h := by
  have hlhs : ∀ lhs, g.byLhs lhs = h.byLhs lhs :=
    fun lhs => by rw [byLhs_eq_filter, byLhs_eq_filter, hp]
  have hkey : ∀ key, g.byRhsKey key = h.byRhsKey key := fun key => by
    rw [byRhsKey_eq_filter, byRhsKey_eq_filter, hp]
  have hnonterminal : ∀ s, g.isNonterminal s = h.isNonterminal s := fun s => by
    rw [isNonterminal, isNonterminal, hlhs]
  have hterminals : g.terminals = h.terminals := by simp only [terminals, hp, hnonterminal]
  have hnonterminals : g.nonterminals = h.nonterminals := by
    rw [g.nonterminals_eq, h.nonterminals_eq, hp]
  refine ⟨hlhs, hkey, fun rhs => hkey _, fun s => ?_, hnonterminal, hterminals, hnonterminals, ?_⟩
  · rw [isTerminal, isTerminal, occursRight, occursRight, hnonterminal, hp]
  · rw [symbols, symbols, hterminals, hnonterminals]

end Grammar

/-- The grammar built from a start symbol and at least one production matches them, and building it
again from its own start symbol and productions changes nothing. Grammars that are equal in these
two answer alike. -/
theorem build_matches (start : Symbol) {ps : List Production} (hps : ps ≠ []) :
    ∃ g, Grammar.build start ps = .ok g ∧ g.Matches start ps ∧
      Grammar.build g.start g.productions = .ok g ∧
      ∀ h : Grammar, g.start = h.start → g.productions = h.productions → g.Alike h := by
  have hbuild : Grammar.build start ps = .ok (Grammar.ofProductions start ps) :=
    Grammar.build_eq_ok_iff.mpr ⟨hps, rfl⟩
  refine ⟨_, hbuild, Grammar.matches_ofProductions start ps, ?_,
    fun h _ hp => Grammar.alike_of_productions hp⟩
  rw [Grammar.build_eq_ok_iff, Grammar.ofProductions_productions]
  exact ⟨Grammar.productions_ne_nil_of_build hbuild, rfl⟩

/-- One production stands three times. Two right-hand sides share a key because of a space in a
symbol, and two because one of them is empty. -/
theorem build_matches_shared_keys :
    let ps : List Production :=
      [⟨"S", ["A", "B"]⟩, ⟨"T", ["A B"]⟩, ⟨"S", ["A", "B"]⟩, ⟨"A", []⟩, ⟨"S", ["A", "B"]⟩,
      ⟨"B", [""]⟩, ⟨"B", ["S"]⟩]
    ∃ g, Grammar.build "S" ps = .ok g ∧ g.Matches "S" ps ∧
      Grammar.build g.start g.productions = .ok g ∧
      ∀ h : Grammar, g.start = h.start → g.productions = h.productions → g.Alike h := by
  intro ps
  exact build_matches "S" (List.cons_ne_nil _ _)

end Constituency
