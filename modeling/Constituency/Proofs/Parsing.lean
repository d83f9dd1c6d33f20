import Constituency.Parsing
import Constituency.Proofs.Agreement
import Constituency.Proofs.Loading
import Constituency.Proofs.Separation

/-!
Parsing by conversion. The chart of the converted grammar has one tree for each shape over the whole
sentence. Every derivation tree of the source comes from such a tree, and flattening keeps shapes
apart, so the flattened trees are the derivation trees of the source, one for each class of trees
that differ in nothing but unit chains.
-/
namespace Constituency

open SyntaxTree

namespace Conversion

variable {g h : Grammar} {n : Naming} {tokens : List String}

section Setting

variable (hs : Setting g n h tokens) (hstart : g.isSymbol g.start = true)

include hs

theorem Setting.exists_spanTree_of_isDerivation {u : Tree} (hu : IsDerivation g tokens u) :
    ∃ t, h.SpanTree tokens g.start 0 tokens.length t ∧ pieces g.isSymbol t = [u] := by
  obtain ⟨⟨s, us, rfl⟩, hlaid⟩ := (Grammar.isDerivation_iff fun p hp => (hs.clear p hp).1).mp hu
  exact hs.exists_spanTree hlaid

include hstart

omit hs in
/-- The tree for a kept symbol is one piece. -/
theorem pieces_of_start {i j : Nat} {t : Tree} (ht : h.SpanTree tokens g.start i j t) :
    pieces g.isSymbol t = [t.flatten g.isSymbol] := by
  obtain ⟨s, ts, rfl⟩ := ht.exists_branch
  rw [pieces_kept hstart, flatten]

/-- A tree of the converted grammar for the start symbol flattens to a derivation tree. -/
theorem Setting.isDerivation_flatten {t : Tree} (ht : h.SpanTree tokens g.start 0 tokens.length t) :
    IsDerivation g tokens (t.flatten g.isSymbol) := by
  refine (Grammar.isDerivation_iff fun p hp => (hs.clear p hp).1).mpr ⟨?_, ?_⟩
  · obtain ⟨s, ts, rfl⟩ := ht.exists_branch
    exact ⟨s, _, rfl⟩
  · rw [← pieces_of_start hstart ht]
    exact (hs.pieces_of_spanTree ht).2

/-- Trees for the start symbol flatten to equivalent trees only if they have the same shape. -/
theorem Setting.unitEquiv_flatten_iff {t u : Tree}
    (ht : h.SpanTree tokens g.start 0 tokens.length t)
    (hu : h.SpanTree tokens g.start 0 tokens.length u) :
    UnitEquiv (t.flatten g.isSymbol) (u.flatten g.isSymbol) ↔ t.shape = u.shape := by
  have hshapes : ∀ v, h.SpanTree tokens g.start 0 tokens.length v →
      [(v.flatten g.isSymbol).shape] = v.shape.lift g.isSymbol := by
    intro v hv
    rw [← hs.shapes_pieces hv, pieces_of_start hstart hv]
    rfl
  rw [unitEquiv_iff_shape_eq, ← List.singleton_inj, hshapes t ht, hshapes u hu]
  constructor
  · exact hs.lift_injective ht.spanShape hu.spanShape
  · exact congrArg _

section Chart

variable {c : Chart} (hchart : h.chart tokens = .ok c)

include hchart

/-- The trees of the chart flatten to derivation trees. -/
theorem Setting.isDerivation_of_mem_trees {t : Tree} (ht : t ∈ c.trees g.start) :
    IsDerivation g tokens (t.flatten g.isSymbol) :=
  hs.isDerivation_flatten hstart (Chart.spanTree_of_mem_trees hchart ht).2

/-- No two of them flatten to equivalent trees. -/
theorem Setting.eq_of_unitEquiv_flatten {t u : Tree} (ht : t ∈ c.trees g.start)
    (hu : u ∈ c.trees g.start) (hequiv : UnitEquiv (t.flatten g.isSymbol) (u.flatten g.isSymbol)) :
    t = u := by
  have hclear := hs.explains.hasClearKeys hs.clear
  have hshape := (hs.unitEquiv_flatten_iff hstart (Chart.spanTree_of_mem_trees hchart ht).2
    (Chart.spanTree_of_mem_trees hchart hu).2).mp hequiv
  exact Chart.eq_of_mem_trees hclear hchart ht hu hshape

/-- Every derivation tree is equivalent to one of them flattened. -/
theorem Setting.exists_unitEquiv_flatten {t : Tree} (ht : IsDerivation g tokens t) :
    ∃ u ∈ c.trees g.start, UnitEquiv t (u.flatten g.isSymbol) := by
  obtain ⟨v, hv, hpieces⟩ := hs.exists_spanTree_of_isDerivation ht
  obtain ⟨u, hu, hshape⟩ := Chart.exists_mem_trees hchart hv.spanShape
  obtain rfl := List.singleton_inj.mp ((pieces_of_start hstart hv).symm.trans hpieces)
  refine ⟨u, hu, (hs.unitEquiv_flatten_iff hstart hv ?_).mpr hshape.symm⟩
  exact (Chart.spanTree_of_mem_trees hchart hu).2

theorem Setting.nodup_flatten : ((c.trees g.start).map (SyntaxTree.flatten g.isSymbol)).Nodup := by
  have hclear := hs.explains.hasClearKeys hs.clear
  refine (Chart.nodup_trees hclear hchart g.start).map_on fun t ht u hu heq => ?_
  exact hs.eq_of_unitEquiv_flatten hstart hchart ht hu (unitEquiv_iff_shape_eq.mpr (congrArg _ heq))

end Chart

end Setting

end Conversion

open Conversion in
/-- Parsing by conversion gives derivation trees of the source, all different, and every derivation
tree of the source is equivalent to exactly one of them. So a sentence is accepted when it has
one. -/
theorem parse_toWeakNormal_exact {text : String} {g : Grammar} (hload : Grammar.load text = .ok g)
    (hstart : g.start ∈ g.symbols) {tokens : List String} (hwords : ∀ t ∈ tokens, Blankless t)
    (hterminal : ∀ t ∈ tokens, g.isNonterminal (quote t) = false) :
    (g.toWeakNormal.parse tokens).trees.Nodup ∧
    (∀ t ∈ (g.toWeakNormal.parse tokens).trees, IsDerivation g tokens t) ∧
    (∀ t, IsDerivation g tokens t → ∃! u, u ∈ (g.toWeakNormal.parse tokens).trees ∧ UnitEquiv t u) ∧
    ((g.toWeakNormal.parse tokens).outcome = .accepted ↔ ∃ t, IsDerivation g tokens t) := by
  have hloadable := loadable_of_load hload
  obtain ⟨n, he⟩ := exists_explains fun p hp => (hloadable p hp).bar_rhs
  have hs : Setting g n g.toWeakNormal.grammar tokens :=
    ⟨he, hasClearKeys_of_loadable hloadable, fun p hp => (hloadable p hp).blankless_lhs.spaceFree,
      fun t ht => (hwords t ht).spaceFree, hterminal⟩
  have hkeep : g.isSymbol g.start = true := Grammar.mem_symbols.mp hstart
  cases hchart : g.toWeakNormal.grammar.chart tokens with
  | error e =>
    have hnone : ∀ t, ¬ IsDerivation g tokens t := by
      intro t ht
      obtain ⟨u, hu, -⟩ := hs.exists_spanTree_of_isDerivation ht
      obtain ⟨c, hc⟩ := Chart.exists_chart_of_spanTree hu
      cases hchart.symm.trans hc
    have hparse : g.toWeakNormal.parse tokens = ⟨[], .unknownToken e.token⟩ := by
      rw [Conversion.parse, Grammar.parse, hchart]
      rfl
    rw [hparse]
    refine ⟨List.nodup_nil, by simp, fun t ht => absurd ht (hnone t), ?_⟩
    simpa using hnone
  | ok c =>
    have hparse : g.toWeakNormal.parse tokens =
        ⟨(c.trees g.start).map (SyntaxTree.flatten g.isSymbol),
          if c.trees g.start ≠ [] then .accepted else .rejected⟩ := by
      rw [Conversion.parse, outcome_of_chart hchart]
      rfl
    rw [hparse]
    refine ⟨hs.nodup_flatten hkeep hchart, ?_, ?_, ?_⟩
    · intro t ht
      obtain ⟨u, hu, rfl⟩ := List.mem_map.mp ht
      exact hs.isDerivation_of_mem_trees hkeep hchart hu
    · intro t ht
      obtain ⟨u, hu, hequiv⟩ := hs.exists_unitEquiv_flatten hkeep hchart ht
      refine ⟨u.flatten g.isSymbol, ⟨List.mem_map_of_mem hu, hequiv⟩, ?_⟩
      intro w hw
      obtain ⟨hw, hequiv'⟩ := hw
      obtain ⟨v, hv, rfl⟩ := List.mem_map.mp hw
      -- both are equivalent to the same tree, hence to each other
      have hboth :=
        (unitEquiv_iff_shape_eq.mp hequiv').symm.trans (unitEquiv_iff_shape_eq.mp hequiv)
      rw [hs.eq_of_unitEquiv_flatten hkeep hchart hv hu (unitEquiv_iff_shape_eq.mpr hboth)]
    · rw [ite_eq_left_iff]
      simp only [reduceCtorEq, imp_false, not_not]
      constructor
      · intro hne
        obtain ⟨t, ht⟩ := List.exists_mem_of_ne_nil _ hne
        exact ⟨_, hs.isDerivation_of_mem_trees hkeep hchart ht⟩
      · intro hex
        obtain ⟨t, ht⟩ := hex
        obtain ⟨u, hu, -⟩ := hs.exists_unitEquiv_flatten hkeep hchart ht
        exact List.ne_nil_of_mem hu

/-- A grammar with a cycle of unit productions and a rule to divide. -/
theorem parse_toWeakNormal_exact_cyclic :
    let g := Grammar.ofProductions "S"
      [⟨"S", ["X", "X", "X"]⟩, ⟨"S", ["X"]⟩, ⟨"X", ["S"]⟩, ⟨"X", [quote "a"]⟩]
    let parse := g.toWeakNormal.parse ["a", "a", "a"]
    parse.trees.Nodup ∧
    (∀ t ∈ parse.trees, IsDerivation g ["a", "a", "a"] t) ∧
    (∀ t, IsDerivation g ["a", "a", "a"] t → ∃! u, u ∈ parse.trees ∧ UnitEquiv t u) ∧
    (parse.outcome = .accepted ↔ ∃ t, IsDerivation g ["a", "a", "a"] t) :=
  @parse_toWeakNormal_exact "S -> X X X | X\nX -> S | \"a\"" _ (by decide +kernel)
    (by decide +kernel)
    ["a", "a", "a"] (by decide +kernel) (by decide +kernel)

end Constituency
