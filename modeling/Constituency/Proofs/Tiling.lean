import Constituency.Proofs.Derivation
import Constituency.Proofs.References
import Constituency.Proofs.Splicing

/-!
Trees laid over their part of a sentence. The tree below an entry of a chart has the tokens of its
span as leaves, and the spans of the children of each branch follow on one another and make up the
span of the branch. Flattening puts children in the place of a branch whose span they make up, so
all of this stays.
-/
namespace Constituency

namespace SyntaxTree

variable {α β : Type}

/-- The spans of the trees follow on one another, from the first position up to the last. -/
def Tiles : Nat → Nat → List (SyntaxTree α β) → Prop
  | i, j, [] => i = j
  | i, j, t :: ts => t.span.start = i ∧ Tiles t.span.stop j ts

/-- No branch has an empty span, and the spans of its children make up its own. -/
inductive Tiled : SyntaxTree α β → Prop
  | leaf (w : β) (s : Span) : Tiled (.leaf w s)
  | branch {l : α} {s : Span} {ts : List (SyntaxTree α β)} (hlt : s.start < s.stop)
      (hs : Tiles s.start s.stop ts) (hts : ∀ t ∈ ts, Tiled t) : Tiled (.branch l s ts)

theorem Tiles.append {i k j : Nat} {ts us : List (SyntaxTree α β)} (ht : Tiles i k ts)
    (hu : Tiles k j us) :
    Tiles i j (ts ++ us) := by
  induction ts generalizing i with
  | nil =>
    obtain rfl : i = k := ht
    exact hu
  | cons t ts ih => exact ⟨ht.1, ih ht.2⟩

/-- What a tree is among its siblings makes up the span of the tree. -/
theorem Tiled.lift {t : SyntaxTree α β} (h : t.Tiled) (keep : α → Bool) :
    Tiles t.span.start t.span.stop (t.lift keep) ∧ ∀ u ∈ t.lift keep, u.Tiled := by
  have hself : Tiles t.span.start t.span.stop [t] ∧ ∀ u ∈ [t], u.Tiled :=
    ⟨⟨rfl, rfl⟩, by simpa using h⟩
  cases h with
  | leaf w s => exact hself
  | @branch l s ts hlt hs hts =>
    cases hl : keep l with
    | true => simpa only [SyntaxTree.lift, hl, if_true] using hself
    | false =>
      rw [lift_branch_of_not hl]
      exact ⟨hs, hts⟩

mutual

theorem Tiled.flatten (keep : α → Bool) : (t : SyntaxTree α β) → t.Tiled → (t.flatten keep).Tiled
  | .leaf w s, _ => .leaf w s
  | .branch l s ts, .branch hlt hs hts => by
    have hbelow := tiles_flattenAll keep ts hts hs
    exact .branch hlt hbelow.1 hbelow.2

/-- The flattened children make up what the children made up. -/
theorem tiles_flattenAll (keep : α → Bool) :
    (ts : List (SyntaxTree α β)) → (∀ t ∈ ts, t.Tiled) → {i j : Nat} → Tiles i j ts →
      Tiles i j (flattenAll keep ts) ∧ ∀ t ∈ flattenAll keep ts, t.Tiled
  | [], _, _, _, h => ⟨h, by simp [flattenAll]⟩
  | t :: ts, hts, i, j, ⟨hstart, hrest⟩ => by
    have hfirst := (Tiled.flatten keep t (hts t List.mem_cons_self)).lift keep
    have hsecond := tiles_flattenAll keep ts (fun u hu => hts u (List.mem_cons_of_mem _ hu)) hrest
    rw [span_flatten, hstart] at hfirst
    rw [flattenAll]
    exact ⟨hfirst.1.append hsecond.1, List.forall_mem_append.mpr ⟨hfirst.2, hsecond.2⟩⟩

end

end SyntaxTree

/-- The leaves of the tree are the tokens from one position up to another, its root spans these, and
its branches are tiled by what lies below them. -/
structure LaidOver (tokens : List String) (i j : Nat) (t : Tree) : Prop where
  leaves : t.leaves = part (tokenLeaves tokens) i j
  span : t.span = ⟨i, j⟩
  tiled : t.Tiled

variable {g : Grammar} {tokens : List String} {i j : Nat} {t : Tree}

theorem LaidOver.flatten (h : LaidOver tokens i j t) (keep : Symbol → Bool) :
    LaidOver tokens i j (t.flatten keep) := by
  refine ⟨?_, ?_, h.tiled.flatten keep t⟩
  · rw [SyntaxTree.leaves_flatten, h.leaves]
  · rw [SyntaxTree.span_flatten, h.span]

/-- A tree over a span is laid over the tokens of the span. -/
theorem Grammar.SpanTree.laidOver {s : Symbol} (h : g.SpanTree tokens s i j t) :
    LaidOver tokens i j t := by
  induction h with
  | @token i w p hw _ =>
    refine ⟨?_, rfl,
      .branch (Nat.lt_succ_self i) ⟨rfl, rfl⟩ (by simpa using SyntaxTree.Tiled.leaf w _)⟩
    rw [part_singleton (getElem?_tokenLeaves.mpr ⟨w, hw, rfl⟩)]
    rfl
  | @unit i j b p u _ hb ih =>
    refine ⟨?_, rfl, .branch hb.lt.1 ?_ (by simpa using ih.tiled)⟩
    · rw [SyntaxTree.leaves, SyntaxTree.leavesAll, SyntaxTree.leavesAll, List.append_nil, ih.leaves]
    · simp [SyntaxTree.Tiles, ih.span]
  | @binary i k j b c p u v _ hb hc ihb ihc =>
    have hik := hb.lt.1
    have hkj := hc.lt.1
    refine ⟨?_, rfl, .branch (Nat.lt_trans hik hkj) ?_ (by simpa using ⟨ihb.tiled, ihc.tiled⟩)⟩
    · rw [SyntaxTree.leaves, SyntaxTree.leavesAll, SyntaxTree.leavesAll, SyntaxTree.leavesAll,
        List.append_nil, ihb.leaves, ihc.leaves,
        part_append _ (Nat.le_of_lt hik) (Nat.le_of_lt hkj)]
    · simp [SyntaxTree.Tiles, ihb.span, ihc.span]

/-- The tree below an entry of a chart is found, it is laid over the tokens of its cell, and so is
what it flattens to. -/
theorem tree_laid_over {c : Chart} (h : g.chart tokens = .ok c) {cell : List Entry}
    (hcell : c.cell i j = .ok cell) {idx : Nat} (hidx : idx < cell.length) :
    ∃ t, c.tree ⟨i, j, idx⟩ = .ok t ∧ LaidOver tokens i j t ∧
      ∀ keep : Symbol → Bool, LaidOver tokens i j (t.flatten keep) := by
  obtain ⟨hi, hj, rfl⟩ := Chart.cell_eq_ok_iff.mp hcell
  have hget := Chart.get_eq_ok_iff.mpr ⟨hi, hj, List.getElem?_eq_getElem hidx⟩
  obtain ⟨t, ht, hspan⟩ := Chart.exists_tree h hget
  exact ⟨t, ht, hspan.laidOver, hspan.laidOver.flatten⟩

/-- A symbol with a space in it, whose key is that of two symbols, and a cell with a chain in it. -/
theorem tree_laid_over_keyed :
    let g := Grammar.ofProductions "S"
      [⟨"S", ["X Y"]⟩, ⟨"Y", ["S"]⟩, ⟨"X", [quote "a"]⟩, ⟨"Y", [quote "b"]⟩]
    let tokens := ["a", "a", "b"]
    ∃ c cell, g.chart tokens = .ok c ∧ c.cell 0 3 = .ok cell ∧ 1 < cell.length ∧
      ∃ t, c.tree ⟨0, 3, 1⟩ = .ok t ∧ LaidOver tokens 0 3 t ∧
        ∀ keep : Symbol → Bool, LaidOver tokens 0 3 (t.flatten keep) := by
  intro g tokens
  have hknown : ∀ t ∈ tokens, g.byRhsKey (quote t) ≠ [] := by decide +kernel
  have hchart := Chart.chart_eq_ok_iff.mpr ⟨_, SpanTable.fill_eq_ok_iff.mpr ⟨hknown, rfl⟩, rfl⟩
  have hcell := Chart.cell_of_chart hchart (i := 0) (j := 3) (by decide) (by decide)
  refine ⟨_, _, hchart, hcell, ?_, tree_laid_over hchart hcell ?_⟩
  · decide +kernel
  · decide +kernel

end Constituency
