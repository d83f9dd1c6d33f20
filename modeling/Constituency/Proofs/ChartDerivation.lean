import Constituency.Proofs.Loading
import Constituency.Proofs.Uniqueness

/-!
The derivations that a chart holds. A node of such a derivation lies over a token, over one symbol,
or over two symbols side by side, each time by a production of the grammar. Two derivations are
equivalent when they differ in nothing but the unit nodes above their other nodes. The entries of a
cell are these derivations up to equivalence: the tree of an entry is the tree of a derivation, and
every derivation is equivalent to that of one entry and no more.
-/
namespace Constituency

/-- A derivation of a symbol over the tokens from one position up to another. -/
inductive ChartDerivation (g : Grammar) (tokens : List String) : Symbol → Nat → Nat → Type
  | leaf {s : Symbol} {i : Nat} {w : String} (hw : tokens[i]? = some w)
      (hp : ⟨s, [quote w]⟩ ∈ g.productions) : ChartDerivation g tokens s i (i + 1)
  | unit {s b : Symbol} {i j : Nat} (hp : ⟨s, [b]⟩ ∈ g.productions)
      (below : ChartDerivation g tokens b i j) : ChartDerivation g tokens s i j
  | binary {s b c : Symbol} {i k j : Nat} (hp : ⟨s, [b, c]⟩ ∈ g.productions)
      (left : ChartDerivation g tokens b i k) (right : ChartDerivation g tokens c k j) :
      ChartDerivation g tokens s i j

namespace ChartDerivation

variable {g : Grammar} {tokens : List String} {s : Symbol} {i j : Nat}

def tree {s : Symbol} {i j : Nat} : ChartDerivation g tokens s i j → Tree
  | @leaf _ _ s i w _ _ => .branch s ⟨i, i + 1⟩ [.leaf w ⟨i, i + 1⟩]
  | @unit _ _ s _ i j _ below => .branch s ⟨i, j⟩ [below.tree]
  | @binary _ _ s _ _ i _ j _ left right => .branch s ⟨i, j⟩ [left.tree, right.tree]

/-- The first node that is no unit node, with its symbol. -/
def base {s : Symbol} {i j : Nat} : ChartDerivation g tokens s i j →
    (b : Symbol) × ChartDerivation g tokens b i j
  | .leaf hw hp => ⟨_, .leaf hw hp⟩
  | .unit _ below => below.base
  | .binary hp left right => ⟨_, .binary hp left right⟩

/-- The first nodes that are no unit nodes have the same symbol and lie over the same token, or over
equivalent derivations on either side of the same position. -/
inductive UnitEquiv : {s : Symbol} → {i j : Nat} → (d e : ChartDerivation g tokens s i j) → Prop
  | leaf {s m : Symbol} {i : Nat} {v w : String} {d e : ChartDerivation g tokens s i (i + 1)}
      {hv : tokens[i]? = some v} {hp : ⟨m, [quote v]⟩ ∈ g.productions}
      {hw : tokens[i]? = some w} {hq : ⟨m, [quote w]⟩ ∈ g.productions}
      (hd : d.base = ⟨m, .leaf hv hp⟩) (he : e.base = ⟨m, .leaf hw hq⟩) : UnitEquiv d e
  | binary {s m b c : Symbol} {i k j : Nat} {d e : ChartDerivation g tokens s i j}
      {hp hq : ⟨m, [b, c]⟩ ∈ g.productions} {x x' : ChartDerivation g tokens b i k}
      {y y' : ChartDerivation g tokens c k j} (hd : d.base = ⟨m, .binary hp x y⟩)
      (he : e.base = ⟨m, .binary hq x' y'⟩) (hx : UnitEquiv x x') (hy : UnitEquiv y y') :
      UnitEquiv d e

theorem spanTree (d : ChartDerivation g tokens s i j) : g.SpanTree tokens s i j d.tree := by
  induction d with
  | @leaf s i w hw hp => exact .token hw (Grammar.mem_byRhs hp (Eq.refl [quote w]))
  | @unit s b i j hp _ ih => exact .unit (Grammar.mem_byRhs hp (Eq.refl [b])) ih
  | binary hp _ _ ihx ihy => exact .binary (Grammar.mem_byRhs hp rfl) ihx ihy

theorem base_ne_unit (d : ChartDerivation g tokens s i j) {m b : Symbol}
    (hp : ⟨m, [b]⟩ ∈ g.productions) (below : ChartDerivation g tokens b i j) :
    d.base ≠ ⟨m, .unit hp below⟩ := by
  induction d with
  | leaf hw hq =>
    intro h
    cases h
  | unit _ _ ih => exact ih below
  | binary hq x y =>
    intro h
    cases h

/-- The shapes below a node that is no unit node. -/
def shapesBelow : ChartDerivation g tokens s i j → List Shape
  | @leaf _ _ _ i w _ _ => [.leaf w ⟨i, i + 1⟩]
  | .unit _ _ => []
  | .binary _ left right => [left.tree.shape, right.tree.shape]

/-- The shape of a derivation has its symbol on top and its base at the foot. -/
theorem shape_tree (d : ChartDerivation g tokens s i j) :
    d.tree.shape = .branch s d.base.1 d.base.2.shapesBelow := by
  induction d with
  | leaf hw hp => rfl
  | unit hp below ih =>
    rw [tree, SyntaxTree.shape, SyntaxTree.shapes, SyntaxTree.shapes, ih, Shape.above_branch, base]
  | binary hp left right => exact Shape.above_of_two_le (Nat.le_refl 2)

/-- Derivations with one shape are over one span and for one symbol. -/
theorem ends_eq_of_shape_eq {r : Symbol} {k l : Nat} {d : ChartDerivation g tokens s i k}
    {e : ChartDerivation g tokens r i l} (h : d.tree.shape = e.tree.shape) : s = r ∧ k = l := by
  constructor
  · rw [shape_tree, shape_tree, Shape.branch.injEq] at h
    exact h.1
  · rw [← d.spanTree.length_leaves, ← e.spanTree.length_leaves, ← SyntaxTree.leaves_shape, h,
      SyntaxTree.leaves_shape]

/-- Derivations with one shape are equivalent. -/
theorem unitEquiv_of_shape_eq {d e : ChartDerivation g tokens s i j}
    (h : d.tree.shape = e.tree.shape) :
    d.UnitEquiv e := by
  -- the derivations on either side of a split are over fewer tokens
  induction hn : j - i using Nat.strongRecOn generalizing s i j d e with
  | ind n ih =>
    rw [shape_tree, shape_tree, Shape.branch.injEq] at h
    obtain ⟨-, hfoot, hbelow⟩ := h
    rcases hd : d.base with ⟨m, x⟩
    rcases he : e.base with ⟨m', y⟩
    rw [hd, he] at hfoot hbelow
    obtain rfl : m = m' := hfoot
    cases x with
    | leaf hv hp =>
      cases y with
      | leaf hw hq => exact .leaf hd he
      | unit hq below => exact absurd he (base_ne_unit e hq below)
      | binary hq y₁ y₂ => simp [shapesBelow] at hbelow
    | unit hp below => exact absurd hd (base_ne_unit d hp below)
    | @binary _ b c _ k _ hp x₁ x₂ =>
      cases y with
      | leaf hw hq => simp [shapesBelow] at hbelow
      | unit hq below => exact absurd he (base_ne_unit e hq below)
      | @binary _ b' c' _ k' _ hq y₁ y₂ =>
        obtain ⟨hleft, hright⟩ : x₁.tree.shape = y₁.tree.shape ∧ x₂.tree.shape = y₂.tree.shape := by
          simpa [shapesBelow] using hbelow
        obtain ⟨rfl, rfl⟩ := ends_eq_of_shape_eq hleft
        obtain ⟨rfl, -⟩ := ends_eq_of_shape_eq hright
        have hik := x₁.spanTree.lt.1
        have hkj := x₂.spanTree.lt.1
        exact .binary hd he (ih (k - i) (by omega) hleft rfl) (ih (j - k) (by omega) hright rfl)

/-- Derivations are equivalent exactly when their trees have one shape. -/
theorem unitEquiv_iff {d e : ChartDerivation g tokens s i j} :
    d.UnitEquiv e ↔ d.tree.shape = e.tree.shape := by
  constructor
  · intro h
    induction h with
    | @leaf s m i v w d e hv hp hw hq hd he =>
      obtain rfl := Option.some.inj (hv.symm.trans hw)
      rw [shape_tree, shape_tree, hd, he]
    | binary hd he _ _ ihx ihy =>
      rw [shape_tree, shape_tree, hd, he, shapesBelow, shapesBelow, ihx, ihy]
  · exact unitEquiv_of_shape_eq

end ChartDerivation

/-- Where look-ups by key find the productions with a right-hand side and no others, every tree over
a span is that of a derivation. -/
theorem Grammar.SpanTree.exists_derivation {g : Grammar} {tokens : List String}
    (hg : g.HasClearKeys) (hleft : ∀ p ∈ g.productions, SpaceFree p.lhs)
    (hwords : ∀ t ∈ tokens, SpaceFree t) {s : Symbol} {i j : Nat} {t : Tree}
    (h : g.SpanTree tokens s i j t) :
    ∃ d : ChartDerivation g tokens s i j, d.tree = t := by
  have hfree : ∀ {s i j t}, g.SpanTree tokens s i j t → SpaceFree s := by
    intro s i j t ht
    cases ht with
    | token _ hp | unit hp _ | binary hp _ _ => exact hleft _ (Grammar.mem_byRhsKey.mp hp).1
  induction h with
  | @token i w p hw hp =>
    have hfree := (hwords w (List.mem_of_getElem? hw)).quote
    obtain ⟨hp, hrhs⟩ := (mem_byRhsKey_singleton hg hfree).mp hp
    exact ⟨.leaf hw (hrhs ▸ hp), rfl⟩
  | @unit i j b p u hp hb ih =>
    obtain ⟨hp, hrhs⟩ := (mem_byRhsKey_singleton hg (hfree hb)).mp hp
    obtain ⟨d, rfl⟩ := ih
    exact ⟨.unit (hrhs ▸ hp) d, rfl⟩
  | @binary i k j b c p u v hp hb hc ihb ihc =>
    obtain ⟨hp, hrhs⟩ := (mem_byRhsKey_pair hg (hfree hb) (hfree hc)).mp hp
    obtain ⟨d, rfl⟩ := ihb
    obtain ⟨e, rfl⟩ := ihc
    exact ⟨.binary (hrhs ▸ hp) d e, rfl⟩

section Loaded

variable {g : Grammar} {tokens : List String} {c : Chart} {i j : Nat}
  (hloadable : ∀ p ∈ g.productions, p.Loadable) (hwords : ∀ t ∈ tokens, Blankless t)
  (hchart : g.chart tokens = .ok c)

include hloadable hwords hchart

/-- The tree of an entry is the tree of a derivation. -/
theorem Chart.exists_derivation {idx : Nat} {e : Entry} (he : c.get ⟨i, j, idx⟩ = .ok e) :
    ∃ d : ChartDerivation g tokens e.symbol i j, c.tree ⟨i, j, idx⟩ = .ok d.tree := by
  obtain ⟨t, ht, hspan⟩ := exists_tree hchart he
  obtain ⟨d, rfl⟩ := hspan.exists_derivation (hasClearKeys_of_loadable hloadable)
    (fun p hp => (hloadable p hp).blankless_lhs.spaceFree) fun t ht => (hwords t ht).spaceFree
  exact ⟨d, ht⟩

/-- Every derivation is equivalent to that of an entry for its symbol. -/
theorem Chart.exists_unitEquiv {s : Symbol} (d : ChartDerivation g tokens s i j) :
    ∃ idx e, c.get ⟨i, j, idx⟩ = .ok e ∧ e.symbol = s ∧
      ∃ d' : ChartDerivation g tokens s i j, c.tree ⟨i, j, idx⟩ = .ok d'.tree ∧ d.UnitEquiv d' := by
  obtain ⟨idx, e, t, he, rfl, ht, hshape⟩ := exists_shape hchart d.spanTree.spanShape
  obtain ⟨d', hd'⟩ := exists_derivation hloadable hwords hchart he
  obtain rfl := Except.ok.inj (ht.symm.trans hd')
  exact ⟨idx, e, he, rfl, d', hd', ChartDerivation.unitEquiv_iff.mpr hshape.symm⟩

end Loaded

/-- The trees of the entries of a cell are derivations, all different, and every derivation over the
span of the cell is equivalent to that of exactly one entry for its symbol. -/
theorem chart_cell_exact {text : String} {g : Grammar} (hload : Grammar.load text = .ok g)
    {tokens : List String} (hwords : ∀ t ∈ tokens, Blankless t) {c : Chart}
    (hchart : g.chart tokens = .ok c) (i j : Nat) :
    (∀ idx e, c.get ⟨i, j, idx⟩ = .ok e →
      ∃ d : ChartDerivation g tokens e.symbol i j, c.tree ⟨i, j, idx⟩ = .ok d.tree) ∧
    (∀ m n t, c.tree ⟨i, j, m⟩ = .ok t → c.tree ⟨i, j, n⟩ = .ok t → m = n) ∧
    ∀ (s : Symbol) (d : ChartDerivation g tokens s i j), ∃! idx, ∃ e, c.get ⟨i, j, idx⟩ = .ok e ∧
      e.symbol = s ∧
      ∃ d' : ChartDerivation g tokens s i j, c.tree ⟨i, j, idx⟩ = .ok d'.tree ∧ d.UnitEquiv d' := by
  have hloadable := loadable_of_load hload
  have hclear := hasClearKeys_of_loadable hloadable
  refine ⟨fun idx e he => Chart.exists_derivation hloadable hwords hchart he, ?_, ?_⟩
  · intro m n t hm hn
    exact Chart.shape_injective hclear hchart hm hn rfl
  · intro s d
    obtain ⟨idx, e, he, hs, d', hd', hequiv⟩ := Chart.exists_unitEquiv hloadable hwords hchart d
    refine ⟨idx, ⟨e, he, hs, d', hd', hequiv⟩, ?_⟩
    intro m hm
    obtain ⟨-, -, -, d'', hd'', hequiv'⟩ := hm
    rw [ChartDerivation.unitEquiv_iff] at hequiv hequiv'
    exact Chart.shape_injective hclear hchart hd'' hd' (hequiv'.symm.trans hequiv)

/-- A grammar with a cycle of productions with one symbol and two ways to divide this sentence. -/
theorem chart_cell_exact_cyclic :
    let g := Grammar.ofProductions "S"
      [⟨"S", ["S", "S"]⟩, ⟨"S", ["X"]⟩, ⟨"X", ["S"]⟩, ⟨"X", [quote "a"]⟩]
    let tokens := ["a", "a", "a"]
    ∃ c, g.chart tokens = .ok c ∧
      (∀ idx e, c.get ⟨0, 3, idx⟩ = .ok e →
        ∃ d : ChartDerivation g tokens e.symbol 0 3, c.tree ⟨0, 3, idx⟩ = .ok d.tree) ∧
      (∀ m n t, c.tree ⟨0, 3, m⟩ = .ok t → c.tree ⟨0, 3, n⟩ = .ok t → m = n) ∧
      ∀ (s : Symbol) (d : ChartDerivation g tokens s 0 3), ∃! idx, ∃ e, c.get ⟨0, 3, idx⟩ = .ok e ∧
        e.symbol = s ∧
        ∃ d' : ChartDerivation g tokens s 0 3, c.tree ⟨0, 3, idx⟩ = .ok d'.tree ∧
          d.UnitEquiv d' := by
  intro g tokens
  have hknown : ∀ t ∈ tokens, g.byRhsKey (quote t) ≠ [] := by decide +kernel
  have hchart := Chart.chart_eq_ok_iff.mpr ⟨_, SpanTable.fill_eq_ok_iff.mpr ⟨hknown, rfl⟩, rfl⟩
  exact ⟨_, hchart, @chart_cell_exact "S -> S S | X\nX -> S | \"a\"" g (by decide +kernel) tokens
    (by decide +kernel) _ hchart 0 3⟩

end Constituency
