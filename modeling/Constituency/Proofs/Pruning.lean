import Constituency.Proofs.Extension
import Constituency.Proofs.Loading
import Constituency.Proofs.Recognition

/-!
Productions that never apply. Apart from the terminals of the tokens, a fill looks up single symbols
and pairs of symbols, and these are left-hand sides of productions that it found before. So a
grammar with fewer productions fills the same table as long as it finds the same under such keys.
When no symbol holds a space, what is found under them has an allowed shape, and the productions of
any other shape can be dropped, though some nonterminals may become terminals by that.
-/
namespace Constituency

open Grammar

/-- The first grammar has fewer productions than the second but finds the same under every key that
a fill for these tokens can ask for. -/
structure Grammar.Suffices (h g : Grammar) (tokens : List String) : Prop where
  productions : h.productions ⊆ g.productions
  token : ∀ t ∈ tokens, h.byRhsKey (quote t) = g.byRhsKey (quote t)
  unit : ∀ s, h.isNonterminal s = true → h.byRhsKey s = g.byRhsKey s
  pair : ∀ b c, h.isNonterminal b = true → h.isNonterminal c = true →
    h.byRhsKey (rhsKey [b, c]) = g.byRhsKey (rhsKey [b, c])

namespace UnitClosure

variable {g h : Grammar} {lanes : Nat} {fresh fresh' : Fresh}

/-- Each lane has the nonterminals of the grammar still to be reached equally often. -/
def SameFresh (h : Grammar) (fresh fresh' : Fresh) : Prop :=
  ∀ lane s, h.isNonterminal s = true → (fresh.getD lane []).count s = (fresh'.getD lane []).count s

theorem SameFresh.take (hf : SameFresh h fresh fresh') (lane : Nat) (s : Symbol) :
    SameFresh h (fresh.take lane s) (fresh'.take lane s) := by
  intro l t ht
  rw [Fresh.getD_take, Fresh.getD_take]
  split
  · rw [List.count_erase, List.count_erase, hf l t ht]
  · exact hf l t ht

theorem SameFresh.has_eq (hf : SameFresh h fresh fresh') (lane : Nat) {s : Symbol}
    (hs : h.isNonterminal s = true) : fresh.has lane s = fresh'.has lane s := by
  rw [Bool.eq_iff_iff, Fresh.has, Fresh.has, List.contains_iff_mem, List.contains_iff_mem,
    ← List.count_pos_iff, ← List.count_pos_iff, hf lane s hs]

theorem SameFresh.expand (hf : SameFresh h fresh fresh') (lane idx : Nat) {ps : List Production}
    (hps : ∀ p ∈ ps, h.isNonterminal p.lhs = true) :
    (expand lane idx ps fresh).1 = (expand lane idx ps fresh').1 ∧
      SameFresh h (expand lane idx ps fresh).2 (expand lane idx ps fresh').2 := by
  induction ps generalizing fresh fresh' with
  | nil => exact ⟨rfl, hf⟩
  | cons p ps ih =>
    rw [List.forall_mem_cons] at hps
    simp only [UnitClosure.expand, hf.has_eq lane hps.1]
    split
    · obtain ⟨hitems, hrest⟩ := ih (hf.take lane p.lhs) hps.2
      exact ⟨by rw [hitems], hrest⟩
    · exact ih hf hps.2

theorem SameFresh.start (hsub : h.productions ⊆ g.productions) (bases : List (Symbol × Nat)) :
    SameFresh h (start h lanes bases).2 (start g lanes bases).2 := by
  have hbegin : SameFresh h (Array.replicate lanes h.nonterminals)
      (Array.replicate lanes g.nonterminals) := by
    intro lane s hs
    obtain ⟨p, hp, hlhs⟩ := isNonterminal_iff.mp hs
    have hh : h.nonterminals.count s = 1 :=
      List.count_eq_one_of_mem h.nodup_nonterminals (mem_nonterminals.mpr ⟨p, hp, hlhs⟩)
    have hg : g.nonterminals.count s = 1 :=
      List.count_eq_one_of_mem g.nodup_nonterminals (mem_nonterminals.mpr ⟨p, hsub hp, hlhs⟩)
    rw [getD_replicate, getD_replicate]
    split
    · rw [hh, hg]
    · rfl
  simp only [UnitClosure.start]
  generalize Array.replicate lanes h.nonterminals = left at hbegin
  generalize Array.replicate lanes g.nonterminals = right at hbegin
  induction bases generalizing left right with
  | nil => exact hbegin
  | cons b bases ih => exact ih _ _ (hbegin.take b.2 b.1)

section Suffices

variable (hunit : ∀ s, h.isNonterminal s = true → h.byRhsKey s = g.byRhsKey s)

include hunit

/-- From nonterminals of the smaller grammar both reach the same. -/
theorem run_eq_of_unit {idx : Nat} {queue : List Item} (hf : SameFresh h fresh fresh')
    (hq : ∀ item ∈ queue, h.isNonterminal item.symbol = true) :
    run h idx fresh queue = run g idx fresh' queue := by
  fun_induction run h idx fresh queue generalizing fresh' with
  | case1 => rw [run_nil]
  | case2 idx fresh item queue next =>
    rename_i ih
    rw [List.forall_mem_cons] at hq
    have hfound : ∀ p ∈ h.byRhsKey item.symbol, h.isNonterminal p.lhs = true :=
      fun p hp => isNonterminal_of_mem_byRhsKey hp
    obtain ⟨hitems, hrest⟩ := hf.expand item.lane idx hfound
    -- the same items join both queues, and left-hand sides are nonterminals again
    have hnext : ∀ x ∈ queue ++ next.1, h.isNonterminal x.symbol = true := by
      intro x hx
      obtain hx | hx := List.mem_append.mp hx
      · exact hq.2 x hx
      · obtain ⟨p, hp, rfl⟩ := exists_of_mem_expand hx
        exact hfound p hp
    rw [run, ← hunit item.symbol hq.1, ← hitems, ih hrest hnext]

theorem close_eq_of_unit (hsub : h.productions ⊆ g.productions) {bases : List (Symbol × Nat)}
    (hb : ∀ b ∈ bases, h.isNonterminal b.1 = true) : close h lanes bases = close g lanes bases := by
  refine run_eq_of_unit hunit (SameFresh.start hsub bases) fun item hitem => ?_
  obtain ⟨b, hm, rfl⟩ := List.mem_map.mp hitem
  exact hb b hm

end Suffices

end UnitClosure

section Suffices

variable {g h : Grammar} {tokens : List String} (hs : h.Suffices g tokens)

include hs

namespace Entry

theorem pairs_eq_of_suffices (i k j : Nat) {left right : List Entry}
    (hleft : ∀ e ∈ left, h.isNonterminal e.symbol = true)
    (hright : ∀ e ∈ right, h.isNonterminal e.symbol = true) :
    pairs h i k j left right = pairs g i k j left right := by
  refine List.flatMap_congr fun b hb => List.flatMap_congr fun c hc => ?_
  rw [hs.pair _ _ (hleft _ (List.fst_mem_of_mem_zipIdx hb))
    (hright _ (List.fst_mem_of_mem_zipIdx hc))]

theorem units_eq_of_suffices (i j : Nat) {cell : List Entry}
    (hcell : ∀ e ∈ cell, h.isNonterminal e.symbol = true) :
    units h i j cell = units g i j cell := by
  have hlanes : ∀ b ∈ lanes cell, h.isNonterminal b.1 = true := by
    rintro ⟨b, lane⟩ hb
    obtain ⟨e, he, rfl⟩ := mem_lanes.mp hb
    exact hcell e (List.mem_of_getElem? he)
  exact congrArg (List.filterMap _) (UnitClosure.close_eq_of_unit hs.unit hs.productions hlanes)

end Entry

theorem spans_iff_of_suffices {s : Symbol} {i j : Nat} :
    h.Spans tokens s i j ↔ g.Spans tokens s i j := by
  refine ⟨Spans.of_subset hs.productions, fun hspans => ?_⟩
  induction hspans with
  | token ht hp => exact .token ht (hs.token _ (List.mem_of_getElem? ht) ▸ hp)
  | unit hp _ ih => exact .unit (hs.unit _ ih.isNonterminal ▸ hp) ih
  | binary hp _ _ ihb ihc =>
    exact .binary (hs.pair _ _ ihb.isNonterminal ihc.isNonterminal ▸ hp) ihb ihc

namespace SpanTable

theorem lexicon_eq_of_suffices : lexicon h 0 tokens = lexicon g 0 tokens := by
  have htoken := hs.token
  clear hs
  generalize 0 = position
  induction tokens generalizing position with
  | nil => rfl
  | cons t rest ih =>
    rw [List.forall_mem_cons] at htoken
    rw [lexicon, lexicon, htoken.1, ih htoken.2]

omit hs in
theorem isNonterminal_of_mem_get {table : Grid (List Entry)}
    (hfill : fill (List Entry) g tokens = .ok table) {i j : Nat} (hi : i < j)
    (hj : j ≤ tokens.length) : ∀ e ∈ table.get i j, g.isNonterminal e.symbol = true := by
  intro e he
  exact ((exists_mem_table_iff hfill hi hj e.symbol).mp ⟨e, he, rfl⟩).isNonterminal

theorem ground_eq_of_suffices {i j : Nat} (hj : j ≤ tokens.length) :
    (ground h tokens i j : List Entry) = ground g tokens i j := by
  by_cases hnext : j = i + 1
  · subst hnext
    have ht := List.getElem?_eq_getElem hj
    rw [ground_token ht, ground_token ht, hs.token _ (List.mem_of_getElem? ht)]
  · rw [ground_other hnext, ground_other hnext]

theorem bases_eq_of_suffices {cells cells' : Nat → Nat → List Entry} {i j : Nat}
    (hj : j ≤ tokens.length)
    (hsame : ∀ k, i < k → k < j → cells i k = cells' i k ∧ cells k j = cells' k j)
    (hcells : ∀ k, i < k → k < j → (∀ e ∈ cells i k, h.isNonterminal e.symbol = true) ∧
      ∀ e ∈ cells k j, h.isNonterminal e.symbol = true) :
    bases h tokens cells i j = bases g tokens cells' i j := by
  rw [bases, bases, ground_eq_of_suffices hs hj]
  congr 2
  refine List.map_congr_left fun k hk => ?_
  rw [List.mem_range'_1] at hk
  obtain ⟨hl, hr⟩ := hsame k (by omega) (by omega)
  obtain ⟨hleft, hright⟩ := hcells k (by omega) (by omega)
  rw [Entry.pairs_eq_of_suffices hs i k j hleft hright, hl, hr]

/-- Both grammars fill every cell with the same entries. -/
theorem get_eq_of_suffices {table table' : Grid (List Entry)}
    (hh : fill (List Entry) h tokens = .ok table) (hg : fill (List Entry) g tokens = .ok table')
    {i j : Nat} (hi : i < j) (hj : j ≤ tokens.length) :
    table.get i j = table'.get i j := by
  -- the cells below a cell are over fewer tokens
  induction hw : j - i using Nat.strongRecOn generalizing i j with
  | ind w ih =>
    have hbases : bases h tokens table.get i j = bases g tokens table'.get i j :=
      bases_eq_of_suffices hs hj
        (fun k hik hkj =>
          ⟨ih (k - i) (by omega) hik (by omega) rfl, ih (j - k) (by omega) hkj hj rfl⟩)
        (fun k hik hkj =>
          ⟨isNonterminal_of_mem_get hh hik (by omega), isNonterminal_of_mem_get hh hkj hj⟩)
    have hclosed := get_eq_closed hh hi hj
    have hcell : ∀ e ∈ bases h tokens table.get i j, h.isNonterminal e.symbol = true := fun e he =>
      isNonterminal_of_mem_get hh hi hj e (hclosed ▸ List.mem_append_left _ he)
    rw [hclosed, get_eq_closed hg hi hj, Entry.units_eq_of_suffices hs i j hcell, hbases]

end SpanTable

theorem Chart.chart_error_iff_of_suffices {e : UnknownToken} :
    h.chart tokens = .error e ↔ g.chart tokens = .error e := by
  rw [chart_eq_error_iff, chart_eq_error_iff, SpanTable.lexicon_eq_of_suffices hs]

theorem Chart.cell_eq_of_suffices {c d : Chart} (hc : h.chart tokens = .ok c)
    (hd : g.chart tokens = .ok d) {i j : Nat} (hi : i < j) (hj : j ≤ tokens.length) :
    c.cell i j = d.cell i j := by
  rw [cell_of_chart hc hi hj, cell_of_chart hd hi hj]
  obtain ⟨table, hh, rfl⟩ := chart_eq_ok_iff.mp hc
  obtain ⟨table', hg, rfl⟩ := chart_eq_ok_iff.mp hd
  rw [SpanTable.get_eq_of_suffices hs hh hg hi hj]

theorem recognize_eq_of_suffices (hstart : h.start = g.start) :
    h.recognize tokens = g.recognize tokens :=
  recognize_congr (fun e => by rw [SpanTable.lexicon_eq_of_suffices hs])
    (hstart ▸ spans_iff_of_suffices hs)

end Suffices

namespace Grammar

/-- The grammar without the productions that are not of an allowed shape. -/
def prune (g : Grammar) : Grammar := ofProductions g.start (g.productions.filter g.allowsShape)

variable {g : Grammar}

theorem productions_prune : g.prune.productions = g.productions.filter g.allowsShape :=
  eraseDups_of_nodup (g.nodup.filter _)

theorem productions_prune_subset : g.prune.productions ⊆ g.productions := by
  rw [productions_prune]
  exact List.filter_subset_self _

/-- A look-up that finds nothing but productions of an allowed shape finds them still. -/
theorem byRhsKey_prune {key : String} (h : ∀ p ∈ g.byRhsKey key, g.allowsShape p = true) :
    g.prune.byRhsKey key = g.byRhsKey key := by
  rw [byRhsKey_eq_filter, productions_prune, List.filter_comm, ← byRhsKey_eq_filter]
  exact List.filter_eq_self.mpr h

/-- When neither symbols nor tokens hold a space, the productions of an allowed shape suffice. -/
theorem prune_suffices (hg : g.HasClearKeys) (hleft : ∀ p ∈ g.productions, SpaceFree p.lhs)
    {tokens : List String} (ht : ∀ t ∈ tokens, SpaceFree t) : g.prune.Suffices g tokens := by
  have hsymbol : ∀ s, g.prune.isNonterminal s = true → SpaceFree s ∧ g.isNonterminal s = true := by
    intro s hs
    obtain ⟨p, hp, rfl⟩ := isNonterminal_iff.mp hs
    have hp := productions_prune_subset hp
    exact ⟨hleft p hp, isNonterminal_lhs hp⟩
  have hsole : ∀ s, SpaceFree s → g.prune.byRhsKey s = g.byRhsKey s := fun s hs =>
    byRhsKey_prune fun p hp =>
      allowsShape_iff.mpr (.inl ⟨s, ((mem_byRhsKey_singleton hg hs).mp hp).2⟩)
  refine ⟨productions_prune_subset, fun t hm => hsole _ (ht t hm).quote,
    fun s hs => hsole s (hsymbol s hs).1, ?_⟩
  intro b c hb hc
  obtain ⟨hbfree, hb⟩ := hsymbol b hb
  obtain ⟨hcfree, hc⟩ := hsymbol c hc
  refine byRhsKey_prune fun p hp => ?_
  exact allowsShape_iff.mpr (.inr ⟨b, c, ((mem_byRhsKey_pair hg hbfree hcfree).mp hp).2, hb, hc⟩)

end Grammar

/-- Only productions with one symbol or with two nonterminals on the right ever apply. Without the
others a sentence has the same unknown token, or a chart with the same entries in every cell, and it
is recognized as before. -/
theorem allowed_productions_suffice {text : String} {g : Grammar}
    (hload : Grammar.load text = .ok g) (hsome : ∃ p ∈ g.productions, g.allowsShape p = true)
    {tokens : List String} (hwords : ∀ t ∈ tokens, Blankless t) :
    ∃ h, Grammar.build g.start (g.productions.filter g.allowsShape) = .ok h ∧
      ((∃ e, g.chart tokens = .error e ∧ h.chart tokens = .error e) ∨
        ∃ c d, g.chart tokens = .ok c ∧ h.chart tokens = .ok d ∧
          ∀ i j, i < j → j ≤ tokens.length → ∃ es, c.cell i j = .ok es ∧ d.cell i j = .ok es) ∧
      g.recognize tokens = h.recognize tokens := by
  obtain ⟨p, hp, hshape⟩ := hsome
  have hne : g.productions.filter g.allowsShape ≠ [] :=
    List.ne_nil_of_mem (List.mem_filter.mpr ⟨hp, hshape⟩)
  have hloadable := loadable_of_load hload
  have hs := Grammar.prune_suffices (hasClearKeys_of_loadable hloadable)
    (fun p hp => (hloadable p hp).blankless_lhs.spaceFree) fun t ht => (hwords t ht).spaceFree
  refine ⟨g.prune, Grammar.build_eq_ok_iff.mpr ⟨hne, rfl⟩, ?_,
    (recognize_eq_of_suffices hs rfl).symm⟩
  cases hd : g.prune.chart tokens with
  | error e => exact .inl ⟨e, (Chart.chart_error_iff_of_suffices hs).mp hd, rfl⟩
  | ok d =>
    cases hc : g.chart tokens with
    | error e => cases hd.symm.trans ((Chart.chart_error_iff_of_suffices hs).mpr hc)
    | ok c =>
      refine .inr ⟨c, d, rfl, rfl, fun i j hi hj => ⟨_, ?_, Chart.cell_of_chart hd hi hj⟩⟩
      rw [← Chart.cell_eq_of_suffices hs hd hc hi hj, Chart.cell_of_chart hd hi hj]

/-- `B` becomes a terminal. It derives three tokens, but neither grammar has it in a cell. -/
theorem allowed_productions_suffice_lost_nonterminal :
    let g :=
      Grammar.ofProductions "S" [⟨"S", ["A", "B"]⟩, ⟨"B", ["A", "A", "A"]⟩, ⟨"B", ["A", quote "x"]⟩,
        ⟨"S", ["S", "A"]⟩, ⟨"S", ["A"]⟩, ⟨"A", [quote "x"]⟩]
    let tokens := ["x", "x", "x"]
    Grammar.load "S -> A B\nB -> A A A | A \"x\"\nS -> S A | A\nA -> \"x\"" = .ok g ∧
    g.productions.filter g.allowsShape =
      [⟨"S", ["A", "B"]⟩, ⟨"S", ["S", "A"]⟩, ⟨"S", ["A"]⟩, ⟨"A", [quote "x"]⟩] ∧
    ∃ h, Grammar.build g.start (g.productions.filter g.allowsShape) = .ok h ∧
      ((∃ e, g.chart tokens = .error e ∧ h.chart tokens = .error e) ∨
        ∃ c d, g.chart tokens = .ok c ∧ h.chart tokens = .ok d ∧
          ∀ i j, i < j → j ≤ tokens.length → ∃ es, c.cell i j = .ok es ∧ d.cell i j = .ok es) ∧
      g.recognize tokens = h.recognize tokens := by
  intro g tokens
  have hload : Grammar.load "S -> A B\nB -> A A A | A \"x\"\nS -> S A | A\nA -> \"x\"" = .ok g := by
    decide +kernel
  exact ⟨hload, by decide +kernel,
    allowed_productions_suffice hload (by decide +kernel) (by decide +kernel)⟩

end Constituency
