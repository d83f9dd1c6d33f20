import Constituency.Parsing
import Constituency.Proofs.References
import Constituency.Proofs.Spanning

/-!
Recognition and parsing say the same. Both fill their tables by one schedule, and whatever the
grammar and the tokens are, the set of symbols over a span is the set of symbols of the entries over
it. A set is closed by a search with a stack, over what the set itself lacks. A list of entries is
closed by a search with a queue, where each base reaches symbols in a lane of its own. Both add what
the bases reach.
-/
namespace Constituency

variable {g : Grammar} {tokens : List String}

/-- The symbols of a recognition table are those that span. -/
theorem mem_table_iff {table : Grid SymbolSet} (h : SpanTable.fill SymbolSet g tokens = .ok table)
    {i j : Nat} (hi : i < j) (hj : j ≤ tokens.length) (s : Symbol) :
    s ∈ (table.get i j).toList ↔ g.Spans tokens s i j :=
  SpanTable.has_get_iff h hi hj s

theorem exists_mem_table_iff {table : Grid (List Entry)}
    (h : SpanTable.fill (List Entry) g tokens = .ok table) {i j : Nat} (hi : i < j)
    (hj : j ≤ tokens.length) (s : Symbol) :
    (∃ e ∈ table.get i j, e.symbol = s) ↔ g.Spans tokens s i j :=
  SpanTable.has_get_iff h hi hj s

/-- The symbols of the entries of a chart are those that span. -/
theorem exists_entry_iff {c : Chart} (h : g.chart tokens = .ok c) {i j : Nat} (hi : i < j)
    (hj : j ≤ tokens.length) (s : Symbol) :
    (∃ idx e, c.get ⟨i, j, idx⟩ = .ok e ∧ e.symbol = s) ↔ g.Spans tokens s i j := by
  obtain ⟨table, hfill, rfl⟩ := Chart.chart_eq_ok_iff.mp h
  rw [← exists_mem_table_iff hfill hi hj]
  constructor
  · intro ⟨idx, e, he, hs⟩
    exact ⟨e, List.mem_of_getElem? (Chart.get_eq_ok_iff.mp he).2.2, hs⟩
  · intro ⟨e, hm, hs⟩
    obtain ⟨idx, he⟩ := List.mem_iff_getElem?.mp hm
    exact ⟨idx, e, Chart.get_eq_ok_iff.mpr ⟨hi, hj, he⟩, hs⟩

/-- A chart has a tree for a symbol exactly when the symbol spans the whole input. -/
theorem trees_ne_nil_iff {c : Chart} (h : g.chart tokens = .ok c) (s : Symbol) :
    c.trees s ≠ [] ↔ tokens ≠ [] ∧ g.Spans tokens s 0 tokens.length := by
  have hsize := Chart.size_of_chart h
  constructor
  · intro hne
    obtain ⟨t, ht⟩ := List.exists_mem_of_ne_nil _ hne
    obtain ⟨idx, e, he, hs, -⟩ := Chart.mem_trees.mp ht
    rw [hsize] at he
    obtain ⟨u, -, hu⟩ := Chart.exists_tree h he
    have hlt := hu.lt
    refine ⟨List.ne_nil_of_length_pos hlt.1, ?_⟩
    exact (exists_entry_iff h hlt.1 hlt.2 s).mp ⟨idx, e, he, hs⟩
  · intro ⟨_, hs⟩
    have hlt := hs.lt
    obtain ⟨idx, e, he, hsym⟩ := (exists_entry_iff h hlt.1 hlt.2 s).mpr hs
    obtain ⟨t, ht, -⟩ := Chart.exists_tree h he
    rw [← hsize] at he ht
    exact List.ne_nil_of_mem (Chart.mem_trees.mpr ⟨idx, e, he, hsym, ht⟩)

theorem recognize_of_table {table : Grid SymbolSet}
    (h : SpanTable.fill SymbolSet g tokens = .ok table) :
    g.recognize tokens =
      if tokens ≠ [] ∧ g.start ∈ (table.get 0 tokens.length).toList
      then .accepted else .rejected := by
  rw [Grammar.recognize, h]
  cases tokens <;> simp [SymbolSet.contains]

theorem outcome_of_chart {c : Chart} (h : g.chart tokens = .ok c) :
    g.parse tokens = ⟨c.trees g.start, if c.trees g.start ≠ [] then .accepted else .rejected⟩ := by
  rw [Grammar.parse, h]
  cases ht : c.trees g.start <;> simp [ht]

/-- A sentence is recognized when the start symbol spans it. -/
theorem recognize_eq_accepted_iff :
    g.recognize tokens = .accepted ↔ g.Spans tokens g.start 0 tokens.length := by
  constructor
  · intro h
    cases hfill : SpanTable.fill SymbolSet g tokens with
    | error e =>
      rw [Grammar.recognize, hfill] at h
      cases h
    | ok table =>
      rw [recognize_of_table hfill] at h
      split at h
      · next hs =>
        exact (mem_table_iff hfill (List.length_pos_iff.mpr hs.1) (Nat.le_refl _) _).mp hs.2
      · cases h
  · intro h
    obtain ⟨table, hfill⟩ : ∃ table, SpanTable.fill SymbolSet g tokens = .ok table :=
      SpanTable.exists_fill_iff.mpr h.forall_known
    rw [recognize_of_table hfill]
    exact if_pos ⟨List.length_pos_iff.mp h.lt.1,
      (mem_table_iff hfill h.lt.1 (Nat.le_refl _) _).mpr h⟩

/-- Recognition depends on where the lexicon stops and on whether the start symbol spans the
sentence. -/
theorem recognize_congr {h : Grammar}
    (hlex : ∀ e, SpanTable.lexicon g 0 tokens = .error e ↔ SpanTable.lexicon h 0 tokens = .error e)
    (hspans : g.Spans tokens g.start 0 tokens.length ↔ h.Spans tokens h.start 0 tokens.length) :
    g.recognize tokens = h.recognize tokens := by
  have herror : ∀ e, SpanTable.fill SymbolSet g tokens = .error e ↔
      SpanTable.fill SymbolSet h tokens = .error e :=
    fun e => SpanTable.fill_eq_error_iff.trans ((hlex e).trans SpanTable.fill_eq_error_iff.symm)
  cases hg : SpanTable.fill SymbolSet g tokens with
  | error e => rw [Grammar.recognize, Grammar.recognize, hg, (herror e).mp hg]
  | ok table =>
    cases hh : SpanTable.fill SymbolSet h tokens with
    | error e => cases hg.symm.trans ((herror e).mpr hh)
    | ok table' =>
      rw [recognize_of_table hg, recognize_of_table hh]
      refine if_congr (and_congr_right fun hn => ?_) rfl rfl
      have hlt := List.length_pos_iff.mpr hn
      rw [mem_table_iff hg hlt (Nat.le_refl _), mem_table_iff hh hlt (Nat.le_refl _), hspans]

/-- A sentence has a parse when the start symbol spans it. -/
theorem outcome_parse_eq_accepted_iff :
    (g.parse tokens).outcome = .accepted ↔ g.Spans tokens g.start 0 tokens.length := by
  cases hchart : g.chart tokens with
  | error e =>
    obtain ⟨front, back, htokens, -, -, hunknown⟩ :=
      SpanTable.lexicon_eq_error_iff.mp (Chart.chart_eq_error_iff.mp hchart)
    have hnot : ¬ g.Spans tokens g.start 0 tokens.length :=
      fun h => hunknown (h.forall_known e.token (by simp [htokens]))
    simp [Grammar.parse, hchart, hnot]
  | ok c =>
    have htrees := trees_ne_nil_iff hchart g.start
    have hne : g.Spans tokens g.start 0 tokens.length → tokens ≠ [] :=
      fun h => List.length_pos_iff.mp h.lt.1
    rw [outcome_of_chart hchart, ite_eq_left_iff, htrees]
    simpa using hne

/-- A conversion recognizes the sentences that it can parse. -/
theorem Conversion.outcome_parse_eq_accepted_iff {c : Conversion} :
    (c.parse tokens).outcome = .accepted ↔ c.recognize tokens = .accepted :=
  Constituency.outcome_parse_eq_accepted_iff.trans recognize_eq_accepted_iff.symm

/-- Filling with sets and filling with entries fail at the same token or give the same symbols over
every span. So recognizing and parsing come to the same outcome, which is acceptance exactly when
there is a tree. -/
theorem recognize_agrees_with_parse (g : Grammar) (tokens : List String) :
    ((∃ e, SpanTable.fill SymbolSet g tokens = .error e ∧ g.chart tokens = .error e) ∨
      ∃ table c, SpanTable.fill SymbolSet g tokens = .ok table ∧ g.chart tokens = .ok c ∧
        ∀ i j, i < j → j ≤ tokens.length → ∃ entries, c.cell i j = .ok entries ∧
          ∀ s, s ∈ (table.get i j).toList ↔ ∃ e ∈ entries, e.symbol = s) ∧
    g.recognize tokens = (g.parse tokens).outcome ∧
    ((g.parse tokens).trees ≠ [] ↔ (g.parse tokens).outcome = .accepted) := by
  cases hlex : SpanTable.lexicon g 0 tokens with
  | error e =>
    have htable : SpanTable.fill SymbolSet g tokens = .error e :=
      SpanTable.fill_eq_error_iff.mpr hlex
    have hchart : g.chart tokens = .error e := by
      rw [Grammar.chart, SpanTable.fill_eq_error_iff.mpr hlex]
      rfl
    have hr : g.recognize tokens = .unknownToken e.token := by rw [Grammar.recognize, htable]
    have hp : g.parse tokens = ⟨[], .unknownToken e.token⟩ := by rw [Grammar.parse, hchart]
    rw [hr, hp]
    exact ⟨.inl ⟨e, htable, hchart⟩, rfl, by simp⟩
  | ok entries =>
    have hknown := SpanTable.known_of_lexicon hlex
    obtain ⟨table, htable⟩ : ∃ table, SpanTable.fill SymbolSet g tokens = .ok table :=
      ⟨_, SpanTable.fill_eq_ok_iff.mpr ⟨hknown, rfl⟩⟩
    obtain ⟨cells, hcells⟩ : ∃ cells, SpanTable.fill (List Entry) g tokens = .ok cells :=
      ⟨_, SpanTable.fill_eq_ok_iff.mpr ⟨hknown, rfl⟩⟩
    have hchart : g.chart tokens = .ok ⟨tokens, cells⟩ :=
      Chart.chart_eq_ok_iff.mpr ⟨cells, hcells, rfl⟩
    refine ⟨.inr ⟨table, _, htable, hchart, ?_⟩, ?_, ?_⟩
    · intro i j hi hj
      refine ⟨cells.get i j, if_pos ⟨hi, hj⟩, fun s => ?_⟩
      rw [mem_table_iff htable hi hj, exists_mem_table_iff hcells hi hj]
    · rw [recognize_of_table htable, outcome_of_chart hchart]
      have htrees := trees_ne_nil_iff hchart g.start
      have hsame : tokens ≠ [] ∧ g.start ∈ (table.get 0 tokens.length).toList ↔
          tokens ≠ [] ∧ g.Spans tokens g.start 0 tokens.length :=
        and_congr_right fun hn =>
          mem_table_iff htable (List.length_pos_iff.mpr hn) (Nat.le_refl _) _
      exact if_congr (hsame.trans htrees.symm) rfl rfl
    · rw [outcome_of_chart hchart]
      simp

end Constituency
