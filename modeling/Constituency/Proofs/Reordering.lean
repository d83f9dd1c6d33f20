import Constituency.Proofs.Extension
import Constituency.Proofs.Loading

/-!
What the order of productions and their repetitions decide. Of two grammars with the same
productions each has all productions of the other, so the cells of their charts have the same
symbols, each equally often. The entries may stand in another order and be built in other ways, and
so may the trees, but there are equally many of them.
-/
namespace Constituency

open Entry Grammar

section Same

variable {g h : Grammar} (hsame : ∀ p, p ∈ g.productions ↔ p ∈ h.productions) {tokens : List String}

include hsame

theorem known_iff_of_same (t : String) : SpanTable.Known g t ↔ SpanTable.Known h t :=
  ⟨known_of_subset fun p => (hsame p).mp, known_of_subset fun p => (hsame p).mpr⟩

theorem spans_iff_of_same {s : Symbol} {i j : Nat} : g.Spans tokens s i j ↔ h.Spans tokens s i j :=
  ⟨Spans.of_subset fun p => (hsame p).mp, Spans.of_subset fun p => (hsame p).mpr⟩

theorem SpanTable.lexicon_error_iff_of_same {e : UnknownToken} :
    lexicon g 0 tokens = .error e ↔ lexicon h 0 tokens = .error e := by
  simp only [lexicon_eq_error_iff, known_iff_of_same hsame]

theorem recognize_eq_of_same (hstart : g.start = h.start) :
    g.recognize tokens = h.recognize tokens :=
  recognize_congr (fun _ => SpanTable.lexicon_error_iff_of_same hsame)
    (hstart ▸ spans_iff_of_same hsame)

/-- The charts of two grammars with the same productions have every symbol equally often in every
cell, and so equally many trees for it. -/
theorem Chart.counts_eq_of_same {c d : Chart} (hc : g.chart tokens = .ok c)
    (hd : h.chart tokens = .ok d) :
    (∀ i j, i < j → j ≤ tokens.length → ∀ s,
      (symbols (c.cells.get i j)).count s = (symbols (d.cells.get i j)).count s) ∧
    ∀ s, (c.trees s).length = (d.trees s).length := by
  have hgh : g.productions ⊆ h.productions := fun p => (hsame p).mp
  have hhg : h.productions ⊆ g.productions := fun p => (hsame p).mpr
  constructor
  · intro i j hi hj s
    obtain ⟨table, hg, rfl⟩ := chart_eq_ok_iff.mp hc
    obtain ⟨table', hh, rfl⟩ := chart_eq_ok_iff.mp hd
    have hperm := (SpanTable.symbols_get_subperm hgh hg hh hi hj).antisymm
      (SpanTable.symbols_get_subperm hhg hh hg hi hj)
    exact hperm.count_eq s
  · intro s
    rw [length_trees hc, length_trees hd]
    have hperm := (symbols_whole_subperm hgh hc hd).antisymm (symbols_whole_subperm hhg hd hc)
    exact hperm.count_eq s

end Same

/-- The order of the productions and their repetitions decide nothing but how parses are presented.
Two grammars built of the same productions come to the same outcome and fail at the same token,
their charts have equally many entries for each symbol over each span, and they find equally many
trees. -/
theorem build_order_irrelevant {s : Symbol} {ps qs : List Production} (hps : ps ≠ [])
    (hqs : qs ≠ []) (hsame : ∀ p, p ∈ ps ↔ p ∈ qs) (tokens : List String) :
    ∃ g h, Grammar.build s ps = .ok g ∧ Grammar.build s qs = .ok h ∧
      g.recognize tokens = h.recognize tokens ∧
      (g.parse tokens).outcome = (h.parse tokens).outcome ∧
      (g.parse tokens).trees.length = (h.parse tokens).trees.length ∧
      ((∃ e, g.chart tokens = .error e ∧ h.chart tokens = .error e) ∨
        ∃ c d, g.chart tokens = .ok c ∧ h.chart tokens = .ok d ∧
          ∀ i j, i < j → j ≤ tokens.length → ∃ es fs, c.cell i j = .ok es ∧ d.cell i j = .ok fs ∧
            ∀ a, (es.countP fun e => e.symbol = a) = fs.countP fun e => e.symbol = a) := by
  refine ⟨_, _, Grammar.build_eq_ok_iff.mpr ⟨hps, rfl⟩, Grammar.build_eq_ok_iff.mpr ⟨hqs, rfl⟩, ?_⟩
  generalize hg : Grammar.ofProductions s ps = g
  generalize hh : Grammar.ofProductions s qs = h
  have hall : ∀ p, p ∈ g.productions ↔ p ∈ h.productions := by
    intro p
    rw [← hg, ← hh, Grammar.productions_ofProductions, Grammar.productions_ofProductions,
      List.mem_eraseDups, List.mem_eraseDups, hsame]
  have hstart : g.start = h.start := by
    rw [← hg, ← hh, Grammar.start_ofProductions, Grammar.start_ofProductions]
  refine ⟨recognize_eq_of_same hall hstart, ?_⟩
  cases hc : g.chart tokens with
  | error e =>
    have hd : h.chart tokens = .error e := by
      rw [Chart.chart_eq_error_iff] at hc ⊢
      exact (SpanTable.lexicon_error_iff_of_same hall).mp hc
    rw [Grammar.parse, Grammar.parse, hc, hd]
    exact ⟨rfl, rfl, .inl ⟨e, rfl, rfl⟩⟩
  | ok c =>
    obtain ⟨d, hd, -⟩ := Chart.exists_of_subset (fun p => (hall p).mp) hc
    obtain ⟨hcells, htrees⟩ := Chart.counts_eq_of_same hall hc hd
    have hnil : c.trees g.start ≠ [] ↔ d.trees h.start ≠ [] := by
      rw [← List.length_pos_iff, ← List.length_pos_iff, hstart, htrees]
    rw [outcome_of_chart hc, outcome_of_chart hd, hd]
    refine ⟨if_congr hnil rfl rfl, hstart ▸ htrees _, .inr ⟨c, d, rfl, rfl, fun i j hi hj => ?_⟩⟩
    refine ⟨_, _, Chart.cell_of_chart hc hi hj, Chart.cell_of_chart hd hi hj, fun a => ?_⟩
    rw [countP_symbol, countP_symbol]
    exact hcells i j hi hj a

/-- Productions in reverse and then repeated: the chain from `X` up to `S` goes over `B` and no
longer over `A`. -/
theorem build_order_irrelevant_reversed :
    let ps : List Production :=
      [⟨"S", ["A"]⟩, ⟨"S", ["B"]⟩, ⟨"A", ["X"]⟩, ⟨"B", ["X"]⟩, ⟨"X", ["S"]⟩, ⟨"S", ["S", "S"]⟩,
        ⟨"X", [quote "a"]⟩]
    let tokens := ["a", "a", "a"]
    ∃ g h, Grammar.build "S" ps = .ok g ∧ Grammar.build "S" (ps.reverse ++ ps) = .ok h ∧
      g.recognize tokens = h.recognize tokens ∧
      (g.parse tokens).outcome = (h.parse tokens).outcome ∧
      (g.parse tokens).trees.length = (h.parse tokens).trees.length ∧
      ((∃ e, g.chart tokens = .error e ∧ h.chart tokens = .error e) ∨
        ∃ c d, g.chart tokens = .ok c ∧ h.chart tokens = .ok d ∧
          ∀ i j, i < j → j ≤ tokens.length → ∃ es fs, c.cell i j = .ok es ∧ d.cell i j = .ok fs ∧
            ∀ a, (es.countP fun e => e.symbol = a) = fs.countP fun e => e.symbol = a) := by
  intro ps tokens
  have hsame : ∀ p, p ∈ ps ↔ p ∈ ps.reverse ++ ps := by simp
  exact build_order_irrelevant (by simp [ps]) (by simp [ps]) hsame tokens

end Constituency
