import Mathlib.Data.List.Perm.Subperm
import Constituency.Proofs.References

/-!
How often a cell has a symbol. The symbols of a cell, with their repetitions, can be told without
its references: two symbols side by side give the left-hand sides of the productions over them, and
closing gives a symbol once for each entry from which it is reached.
-/
namespace Constituency

namespace Entry

variable {g : Grammar}

/-- The symbols of a cell, one for each entry. -/
def symbols (cell : List Entry) : List Symbol := cell.map Entry.symbol

theorem countP_symbol (cell : List Entry) (s : Symbol) :
    (cell.countP fun e => e.symbol = s) = (symbols cell).count s := by
  rw [symbols, List.count_eq_countP, List.countP_map]
  exact List.countP_congr fun e _ => by simp

theorem map_symbol_zipIdx (cell : List Entry) :
    (cell.zipIdx.map fun e => e.1.symbol) = symbols cell := by
  have hfst : (cell.zipIdx.map Prod.fst).map Entry.symbol = symbols cell := by
    rw [List.zipIdx_map_fst, symbols]
  rw [← hfst, List.map_map]
  rfl

theorem flatMap_symbols {α : Type} (cell : List Entry) (f : Symbol → List α) :
    (symbols cell).flatMap f = cell.zipIdx.flatMap fun e => f e.1.symbol := by
  rw [← map_symbol_zipIdx, List.flatMap_map]

theorem symbols_leaves (ps : List Production) : symbols (leaves ps) = ps.map Production.lhs := by
  rw [symbols, leaves, List.map_map]
  rfl

/-- Symbols side by side give the left-hand sides of the productions over them. -/
theorem symbols_pairs (i k j : Nat) (left right : List Entry) :
    symbols (pairs g i k j left right) = (symbols left).flatMap fun b =>
      (symbols right).flatMap fun c => (g.byRhsKey (rhsKey [b, c])).map Production.lhs := by
  simp only [flatMap_symbols]
  simp only [symbols, pairs, List.map_flatMap, List.map_map]
  rfl

/-- The items of a search for one symbol are in different lanes. -/
theorem nodup_lanes_of_symbol (cell : List Entry) (s : Symbol) :
    (((items g cell).filter fun item => item.symbol = s).map UnitClosure.Item.lane).Nodup := by
  obtain ⟨_, hgrown⟩ := items_grown g cell
  rw [List.Nodup, List.pairwise_map, List.pairwise_filter]
  refine hgrown.once.imp fun {a b} hne ha hb hlane => hne ⟨hlane, ?_⟩
  rw [decide_eq_true_eq] at ha hb
  rw [ha, hb]

theorem map_fst_lanes (cell : List Entry) : (lanes cell).map Prod.fst = symbols cell := by
  rw [← map_symbol_zipIdx, lanes, List.map_map]
  rfl

open Classical in
/-- Closing a cell gives a symbol once for each entry from which it is reached. -/
theorem count_symbols_closed (i j : Nat) (cell : List Entry) (s : Symbol) :
    (symbols (cell ++ units g i j cell)).count s =
      (symbols cell).countP fun b => g.UnitReaches b s := by
  have hitems :
      symbols (cell ++ units g i j cell) = (items g cell).map UnitClosure.Item.symbol := by
    rw [closed_eq_map, symbols, List.map_map]
    exact List.map_congr_left fun item hm => symbol_ofItem hm
  have hlanes : (((items g cell).filter fun item => item.symbol = s).map UnitClosure.Item.lane).Perm
      (((lanes cell).filter fun b => g.UnitReaches b.1 s).map Prod.snd) := by
    have hnodup : (((lanes cell).filter fun b => g.UnitReaches b.1 s).map Prod.snd).Nodup :=
      (nodup_snd_lanes cell).sublist (List.filter_sublist.map _)
    refine (List.perm_ext_iff_of_nodup (nodup_lanes_of_symbol cell s) hnodup).mpr fun lane => ?_
    simp only [List.mem_map, List.mem_filter, decide_eq_true_eq, Prod.exists, exists_eq_right]
    rw [← UnitClosure.mem_close_iff (nodup_lanes cell) lanes_lt]
    simp only [items, and_assoc, and_comm]
  calc (symbols (cell ++ units g i j cell)).count s
      = (((items g cell).filter fun item => item.symbol = s).map UnitClosure.Item.lane).length := by
        rw [hitems, List.count_eq_countP, List.countP_map, List.length_map,
          ← List.countP_eq_length_filter]
        exact List.countP_congr fun item _ => by simp
    _ = (((lanes cell).filter fun b => g.UnitReaches b.1 s).map Prod.snd).length := hlanes.length_eq
    _ = (symbols cell).countP fun b => g.UnitReaches b s := by
        rw [List.length_map, ← List.countP_eq_length_filter, ← map_fst_lanes, List.countP_map]
        rfl

end Entry

namespace SpanTable

open Entry

variable {g : Grammar} {tokens : List String}

/-- The symbols of a cell before it is closed. -/
theorem symbols_bases (cells : Nat → Nat → List Entry) (i j : Nat) :
    symbols (bases g tokens cells i j) = symbols (ground g tokens i j) ++
      (List.range' (i + 1) (j - (i + 1))).flatMap fun k =>
        symbols (Entry.pairs g i k j (cells i k) (cells k j)) := by
  rw [bases, symbols, List.map_append, List.map_flatten, List.map_map]
  rfl

theorem symbols_ground (i j : Nat) : symbols (ground g tokens i j) =
    if j = i + 1 then (g.byRhsKey (quote (tokens.getD i ""))).map Production.lhs else [] := by
  unfold ground
  split
  · exact symbols_leaves _
  · rfl

end SpanTable

namespace Chart

open Entry

variable {g : Grammar} {tokens : List String} {c : Chart}

theorem length_roots (c : Chart) (s : Symbol) : (c.roots s).length = (symbols c.whole).count s := by
  rw [roots, List.length_filterMap_eq_countP, ← map_symbol_zipIdx, List.count_eq_countP,
    List.countP_map]
  refine List.countP_congr fun e _ => ?_
  by_cases hs : e.1.symbol = s <;> simp [hs]

/-- A chart has a tree for each entry over the whole input. -/
theorem length_trees (h : g.chart tokens = .ok c) (s : Symbol) :
    (c.trees s).length = (symbols c.whole).count s := by
  rw [← length_roots, trees, List.length_filterMap_eq_countP, List.countP_eq_length]
  intro r hr
  obtain ⟨idx, e, rfl, he, -⟩ := mem_roots.mp hr
  obtain ⟨t, ht, -⟩ := exists_tree h he
  rw [ht]
  rfl

end Chart

end Constituency
