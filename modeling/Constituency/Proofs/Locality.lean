import Constituency.Proofs.References
import Constituency.Proofs.Spanning

/-!
A cell depends on the tokens below it and on nothing else. The chart of a part of the sentence has
the same entries in its cells, in the same order, as the chart of the sentence has over that part;
only the positions that they refer to are counted from another token. So the trees below them are
the same too, up to the numbers in their spans.
-/
namespace Constituency

def Span.shift (o : Nat) (s : Span) : Span := ⟨s.start + o, s.stop + o⟩

namespace SyntaxTree

variable {α β : Type}

mutual

/-- The same tree over tokens that stand further to the right. -/
def shift (o : Nat) : SyntaxTree α β → SyntaxTree α β
  | .leaf w s => .leaf w (s.shift o)
  | .branch l s ts => .branch l (s.shift o) (shiftAll o ts)

def shiftAll (o : Nat) : List (SyntaxTree α β) → List (SyntaxTree α β)
  | [] => []
  | t :: ts => t.shift o :: shiftAll o ts

end

end SyntaxTree

def EntryRef.shift (o : Nat) (r : EntryRef) : EntryRef := ⟨r.row + o, r.col + o, r.idx⟩

theorem EntryRef.Precedes.shift {child parent : EntryRef} (h : child.Precedes parent) (o : Nat) :
    (child.shift o).Precedes (parent.shift o) := by
  simp only [Precedes, width, EntryRef.shift] at h ⊢
  omega

def Derivation.shift (o : Nat) : Derivation → Derivation
  | .leaf => .leaf
  | .unit child => .unit (child.shift o)
  | .binary left right => .binary (left.shift o) (right.shift o)

namespace Entry

/-- The same entry in a cell that stands further to the right. -/
def shift (o : Nat) (e : Entry) : Entry := ⟨e.symbol, e.derivation.shift o⟩

variable {g : Grammar}

theorem leaves_shift (o : Nat) (ps : List Production) : (leaves ps).map (shift o) = leaves ps := by
  rw [leaves, List.map_map]
  rfl

theorem pairs_shift (o i k j : Nat) (left right : List Entry) :
    pairs g (i + o) (k + o) (j + o) (left.map (shift o)) (right.map (shift o)) =
      (pairs g i k j left right).map (shift o) := by
  simp only [pairs, List.zipIdx_map, List.flatMap_map, List.map_flatMap, List.map_map]
  rfl

theorem units_shift (o i j : Nat) (cell : List Entry) :
    units g (i + o) (j + o) (cell.map (shift o)) = (units g i j cell).map (shift o) := by
  simp only [units, List.zipIdx_map, List.map_map, List.length_map, List.map_filterMap,
    Option.map_map]
  rfl

end Entry

namespace SpanTable

open Entry

variable {g : Grammar} {tokens : List String} {l r : Nat}

theorem getElem?_part {α : Type} (w : List α) {i : Nat} (h : l + i < r) :
    (part w l r)[i]? = w[i + l]? := by
  rw [part, List.getElem?_take_of_lt (by omega), List.getElem?_drop, Nat.add_comm]

theorem ground_part {i j : Nat} (hj : j + l ≤ r) :
    ground g tokens (i + l) (j + l) =
      (ground g (part tokens l r) i j : List Entry).map (shift l) := by
  unfold ground
  by_cases h : j = i + 1
  · rw [if_pos h, if_pos (by omega), List.getD_eq_getElem?_getD, List.getD_eq_getElem?_getD,
      getElem?_part tokens (by omega)]
    exact (leaves_shift l _).symm
  · rw [if_neg h, if_neg (by omega)]
    rfl

theorem bases_part {cells cells' : Nat → Nat → List Entry} {i j : Nat} (hj : j + l ≤ r)
    (hcells : ∀ k, i < k → k < j → cells (i + l) (k + l) = (cells' i k).map (shift l) ∧
      cells (k + l) (j + l) = (cells' k j).map (shift l)) :
    bases g tokens cells (i + l) (j + l) =
      (bases g (part tokens l r) cells' i j).map (shift l) := by
  have hrange : List.range' (i + l + 1) (j + l - (i + l + 1)) =
      (List.range' (i + 1) (j - (i + 1))).map (l + ·) := by
    rw [List.map_add_range']
    congr 1 <;> omega
  rw [bases, bases, List.map_append, ground_part hj, hrange, List.map_map, List.map_flatten,
    List.map_map]
  congr 2
  refine List.map_congr_left fun k hk => ?_
  rw [List.mem_range'_1] at hk
  obtain ⟨hl, hr⟩ := hcells k (by omega) (by omega)
  simp only [Function.comp_apply, Nat.add_comm l k, hl, hr]
  exact pairs_shift l i k j _ _

/-- A cell over a part of the sentence is that of the table for the part. -/
theorem get_part {table table' : Grid (List Entry)} (h : fill (List Entry) g tokens = .ok table)
    (h' : fill (List Entry) g (part tokens l r) = .ok table') (hr : r ≤ tokens.length) {i j : Nat}
    (hi : i < j) (hj : j + l ≤ r) : table.get (i + l) (j + l) = (table'.get i j).map (shift l) := by
  -- the cells below a cell are over fewer tokens
  induction hw : j - i using Nat.strongRecOn generalizing i j with
  | ind w ih =>
    have hlength : j ≤ (part tokens l r).length := by
      rw [length_part]
      omega
    have hbases : bases g tokens table.get (i + l) (j + l) =
        (bases g (part tokens l r) table'.get i j).map (shift l) :=
      bases_part hj fun k hik hkj =>
        ⟨ih (k - i) (by omega) hik (by omega) rfl, ih (j - k) (by omega) hkj hj rfl⟩
    rw [get_eq_closed h (by omega) (by omega), get_eq_closed h' hi hlength, hbases, List.map_append,
      units_shift]

end SpanTable

namespace Chart

open Entry

variable {g : Grammar} {tokens : List String} {c d : Chart} {l r : Nat}

theorem exists_chart_part (hc : g.chart tokens = .ok c) (l r : Nat) :
    ∃ d, g.chart (part tokens l r) = .ok d := by
  have hknown := exists_chart_iff.mp ⟨c, hc⟩
  exact exists_chart_iff.mpr fun t ht => hknown t (List.mem_of_mem_drop (List.mem_of_mem_take ht))

section Part

variable (hc : g.chart tokens = .ok c) (hd : g.chart (part tokens l r) = .ok d)
  (hr : r ≤ tokens.length)

include hc hd hr

theorem cells_part {i j : Nat} (hi : i < j) (hj : j + l ≤ r) :
    c.cells.get (i + l) (j + l) = (d.cells.get i j).map (shift l) := by
  obtain ⟨table, hfill, rfl⟩ := chart_eq_ok_iff.mp hc
  obtain ⟨table', hfill', rfl⟩ := chart_eq_ok_iff.mp hd
  exact SpanTable.get_part hfill hfill' hr hi hj

theorem get_part {i j idx : Nat} {e : Entry} (hj : j + l ≤ r) (he : d.get ⟨i, j, idx⟩ = .ok e) :
    c.get ⟨i + l, j + l, idx⟩ = .ok (e.shift l) := by
  obtain ⟨hi, -, hcell⟩ := get_eq_ok_iff.mp he
  have hcell' : (c.cells.get (i + l) (j + l))[idx]? = some (e.shift l) := by
    rw [cells_part hc hd hr hi hj, List.getElem?_map, hcell]
    rfl
  obtain ⟨table, -, rfl⟩ := chart_eq_ok_iff.mp hc
  exact get_eq_ok_iff.mpr ⟨Nat.add_lt_add_right hi l, Nat.le_trans hj hr, hcell'⟩

/-- The tree below an entry over a part of the sentence is that of the chart for the part. -/
theorem tree_part {i j idx : Nat} {e : Entry} (hj : j + l ≤ r) (he : d.get ⟨i, j, idx⟩ = .ok e) :
    ∃ t, d.tree ⟨i, j, idx⟩ = .ok t ∧ c.tree ⟨i + l, j + l, idx⟩ = .ok (t.shift l) := by
  refine get_induction hd (motive := fun i j idx _ => j + l ≤ r →
    ∃ t, d.tree ⟨i, j, idx⟩ = .ok t ∧
      c.tree ⟨i + l, j + l, idx⟩ = .ok (t.shift l)) ?leaf ?unit ?binary he hj
  case leaf =>
    intro i idx w p hw _ he hj
    have hword : c.tokens.getD (i + l) "" = d.tokens.getD i "" := by
      rw [tokens_of_chart hc, tokens_of_chart hd, List.getD_eq_getElem?_getD,
        List.getD_eq_getElem?_getD, SpanTable.getElem?_part tokens (by omega)]
    have ht := tree_leaf (get_part hc hd hr hj he) rfl
    simp only [hword] at ht
    exact ⟨_, tree_leaf he rfl, ht⟩
  case unit =>
    intro i j idx v b p _ hlt _ he ih hj
    obtain ⟨t, ht, ht'⟩ := ih hj
    have hv : EntryRef.Precedes ⟨i, j, v⟩ ⟨i, j, idx⟩ := EntryRef.precedes_earlier hlt
    have hunit := tree_unit (get_part hc hd hr hj he) rfl (hv.shift l) ht'
    exact ⟨_, tree_unit he rfl hv ht, hunit⟩
  case binary =>
    intro i k j idx m n b b' p _ hik hkj _ _ he ihleft ihright hj
    obtain ⟨t, ht, ht'⟩ := ihleft (by omega)
    obtain ⟨u, hu, hu'⟩ := ihright hj
    have hleft : EntryRef.Precedes ⟨i, k, m⟩ ⟨i, j, idx⟩ := EntryRef.precedes_left hik hkj
    have hright : EntryRef.Precedes ⟨k, j, n⟩ ⟨i, j, idx⟩ := EntryRef.precedes_right hik hkj
    have hbinary :=
      tree_binary (get_part hc hd hr hj he) rfl (hleft.shift l) (hright.shift l) ht' hu'
    exact ⟨_, tree_binary he rfl hleft hright ht hu, hbinary⟩

end Part

end Chart

/-- The chart of a part of the sentence is the part of the chart of the sentence: its cells have the
same entries in the same order, counted from the first token of the part, and the trees below them
are the same. -/
theorem chart_part {g : Grammar} {tokens : List String} {c : Chart} (hc : g.chart tokens = .ok c)
    {i j : Nat} (hi : i < j) (hj : j ≤ tokens.length) :
    ∃ d, g.chart (part tokens i j) = .ok d ∧ ∀ a b, i ≤ a → a < b → b ≤ j →
      ∃ es, d.cell (a - i) (b - i) = .ok es ∧ c.cell a b = .ok (es.map (Entry.shift i)) ∧
        ∀ idx < es.length, ∃ t, d.tree ⟨a - i, b - i, idx⟩ = .ok t ∧
          c.tree ⟨a, b, idx⟩ = .ok (t.shift i) := by
  obtain ⟨d, hd⟩ := Chart.exists_chart_part hc i j
  refine ⟨d, hd, fun a b hia hab hbj => ?_⟩
  have ha : a - i + i = a := by omega
  have hb : b - i + i = b := by omega
  have hcells := Chart.cells_part hc hd hj (i := a - i) (j := b - i) (by omega) (by omega)
  have hlength : b - i ≤ (part tokens i j).length := by
    rw [length_part]
    omega
  rw [ha, hb] at hcells
  refine ⟨_, Chart.cell_of_chart hd (by omega) hlength, ?_, fun idx hidx => ?_⟩
  · rw [Chart.cell_of_chart hc hab (by omega), hcells]
  · have he : d.get ⟨a - i, b - i, idx⟩ = .ok (d.cells.get (a - i) (b - i))[idx] := by
      have hsize : b - i ≤ d.size := by
        rw [Chart.size_of_chart hd]
        exact hlength
      exact Chart.get_eq_ok_iff.mpr ⟨by omega, hsize, List.getElem?_eq_getElem hidx⟩
    obtain ⟨t, ht, ht'⟩ := Chart.tree_part hc hd hj (by omega) he
    rw [ha, hb] at ht'
    exact ⟨t, ht, ht'⟩

/-- The middle of a sentence whose cells have several bases and a cycle above them. -/
theorem chart_part_cyclic :
    let g := Grammar.ofProductions "S"
      [⟨"S", ["S", "S"]⟩, ⟨"S", ["X"]⟩, ⟨"X", ["S"]⟩, ⟨"X", [quote "a"]⟩, ⟨"X", ["S", "X"]⟩,
        ⟨"S", [quote "b"]⟩]
    let tokens := ["b", "a", "b", "a", "a"]
    ∃ c, g.chart tokens = .ok c ∧
      ∃ d, g.chart (part tokens 1 4) = .ok d ∧ ∀ a b, 1 ≤ a → a < b → b ≤ 4 →
        ∃ es, d.cell (a - 1) (b - 1) = .ok es ∧ c.cell a b = .ok (es.map (Entry.shift 1)) ∧
          ∀ idx < es.length, ∃ t, d.tree ⟨a - 1, b - 1, idx⟩ = .ok t ∧
            c.tree ⟨a, b, idx⟩ = .ok (t.shift 1) := by
  intro g tokens
  have hknown : ∀ t ∈ tokens, g.byRhsKey (quote t) ≠ [] := by decide +kernel
  obtain ⟨c, hchart⟩ := Chart.exists_chart_iff.mpr hknown
  exact ⟨c, hchart, chart_part hchart (by decide) (by decide)⟩

end Constituency
