import Constituency.Proofs.Key
import Constituency.Proofs.References
import Constituency.Proofs.Shape
import Constituency.Proofs.Spanning

/-!
A cell of a chart has one entry for each shape that a tree over its span can have. Every shape is
found, because a search reaches every symbol above a base. When keys are clear it is found once
only, because the bases of a cell differ in what they lie over and a search reaches a symbol once
from each of them.
-/
namespace Constituency

/-- A shape that a tree for the symbol over these tokens can have: a chain of productions with one
symbol, and at its foot a token or two shapes. -/
inductive Grammar.SpanShape (g : Grammar) (tokens : List String) : Symbol → Nat → Nat → Shape → Prop
  | token {i : Nat} {w : String} {p : Production} {s : Symbol} (ht : tokens[i]? = some w)
      (hp : p ∈ g.byRhsKey (quote w)) (hr : g.UnitReaches p.lhs s) :
      SpanShape g tokens s i (i + 1) (.branch s p.lhs [.leaf w ⟨i, i + 1⟩])
  | binary {i k j : Nat} {b c s : Symbol} {p : Production} {x y : Shape}
      (hp : p ∈ g.byRhsKey (rhsKey [b, c])) (hr : g.UnitReaches p.lhs s)
      (hb : SpanShape g tokens b i k x) (hc : SpanShape g tokens c k j y) :
      SpanShape g tokens s i j (.branch s p.lhs [x, y])

namespace Grammar

variable {g : Grammar} {tokens : List String} {s : Symbol} {i j : Nat}

theorem SpanShape.lt {x : Shape} (h : g.SpanShape tokens s i j x) : i < j ∧ j ≤ tokens.length := by
  induction h with
  | token ht _ _ =>
    have := (List.getElem?_eq_some_iff.mp ht).1
    omega
  | binary _ _ _ _ ihb ihc => omega

theorem SpanShape.exists_foot {x : Shape} (h : g.SpanShape tokens s i j x) :
    ∃ foot cs, x = .branch s foot cs := by
  cases h <;> exact ⟨_, _, rfl⟩

theorem SpanShape.above {b : Symbol} {x : Shape} (h : g.SpanShape tokens b i j x) {p : Production}
    (hp : p ∈ g.byRhsKey b) : g.SpanShape tokens p.lhs i j (Shape.above p.lhs [x]) := by
  cases h with
  | token ht hq hr => exact .token ht hq (hr.tail ⟨p, hp, rfl⟩)
  | binary hq hr hx hy => exact .binary hq (hr.tail ⟨p, hp, rfl⟩) hx hy

/-- The shape of a tree is such a shape. -/
theorem SpanTree.spanShape {t : Tree} (h : g.SpanTree tokens s i j t) :
    g.SpanShape tokens s i j t.shape := by
  induction h with
  | token ht hp => exact .token ht hp .refl
  | unit hp _ ih => exact ih.above hp
  | @binary i k j b c p u v hp _ _ ihb ihc =>
    have hshape :
        (SyntaxTree.branch p.lhs ⟨i, j⟩ [u, v]).shape = .branch p.lhs p.lhs [u.shape, v.shape] :=
      Shape.above_of_two_le (Nat.le_refl 2)
    rw [hshape]
    exact .binary hp .refl ihb ihc

/-- The symbol of a tree over some tokens spans them. -/
theorem SpanTree.spans {t : Tree} (h : g.SpanTree tokens s i j t) : g.Spans tokens s i j := by
  induction h with
  | token ht hp => exact .token ht hp
  | unit hp _ ih => exact .unit hp ih
  | binary hp _ _ ihb ihc => exact .binary hp ihb ihc

theorem SpanTree.exists_branch {t : Tree} (h : g.SpanTree tokens s i j t) :
    ∃ r ts, t = .branch s r ts := by
  cases h <;> exact ⟨_, _, rfl⟩

theorem SpanTree.length_leaves {t : Tree} (h : g.SpanTree tokens s i j t) :
    i + t.leaves.length = j := by
  induction h with
  | token _ _ => rfl
  | unit _ _ ih => simpa [SyntaxTree.leaves, SyntaxTree.leavesAll] using ih
  | binary _ _ _ ihb ihc =>
    simp only [SyntaxTree.leaves, SyntaxTree.leavesAll, List.append_nil, List.length_append]
    omega

/-- With clear keys a look-up finds no two productions for one symbol. -/
theorem nodup_lhs_byRhsKey (hg : g.HasClearKeys) (key : String) :
    ((g.byRhsKey key).map Production.lhs).Nodup := by
  rw [byRhsKey_eq_filter]
  refine List.Nodup.map_on ?_ (g.nodup.filter _)
  intro p hp q hq hlhs
  simp only [List.mem_filter, decide_eq_true_eq] at hp hq
  have hrhs : p.rhs = q.rhs :=
    rhsKey_injective (hg p hp.1).1 (hg q hq.1).1 (hg p hp.1).2 (hg q hq.1).2 (hp.2.trans hq.2.symm)
  exact Production.eq_of_sides hlhs hrhs

end Grammar

namespace Entry

variable {g : Grammar}

/-- An entry for each production that a look-up finds, all built in the same way. -/
theorem nodup_built (hg : g.HasClearKeys) (key : String) (d : Derivation) :
    ((g.byRhsKey key).map fun p => (⟨p.lhs, d⟩ : Entry)).Nodup := by
  have h := (Grammar.nodup_lhs_byRhsKey hg key).map (f := fun s => (⟨s, d⟩ : Entry))
    fun s t hst => (Entry.mk.inj hst).1
  rwa [List.map_map] at h

theorem nodup_pairs (hg : g.HasClearKeys) (i k j : Nat) (left right : List Entry) :
    (pairs g i k j left right).Nodup := by
  rw [pairs, List.nodup_flatMap]
  refine ⟨fun b _ => ?_, (pairwise_zipIdx left).imp fun hlt => ?_⟩
  · rw [List.nodup_flatMap]
    refine ⟨fun c _ => nodup_built hg _ _, (pairwise_zipIdx right).imp fun hlt => ?_⟩
    intro e he he'
    obtain ⟨p, -, rfl⟩ := List.mem_map.mp he
    obtain ⟨q, -, hq⟩ := List.mem_map.mp he'
    simp only [Entry.mk.injEq, Derivation.binary.injEq, EntryRef.mk.injEq, true_and] at hq
    exact Nat.ne_of_lt hlt hq.2.symm
  · intro e he he'
    simp only [List.mem_flatMap, List.mem_map] at he he'
    obtain ⟨c, -, p, -, rfl⟩ := he
    obtain ⟨c', -, q, -, hq⟩ := he'
    simp only [Entry.mk.injEq, Derivation.binary.injEq, EntryRef.mk.injEq, true_and] at hq
    exact Nat.ne_of_lt hlt hq.2.1.symm

end Entry

namespace SpanTable

variable {g : Grammar} {tokens : List String}

/-- No two bases of a cell are the same. -/
theorem nodup_bases (hg : g.HasClearKeys) {cells : Nat → Nat → List Entry} {i j : Nat} :
    (bases g tokens cells i j).Nodup := by
  have hground : (ground g tokens i j : List Entry).Nodup ∧
      ∀ e ∈ (ground g tokens i j : List Entry), e.derivation = .leaf := by
    unfold ground
    split
    · refine ⟨Entry.nodup_built hg _ _, fun e he => ?_⟩
      obtain ⟨p, -, rfl⟩ := List.mem_map.mp he
      rfl
    · exact ⟨List.nodup_nil, by simp [default]⟩
  rw [bases, List.nodup_append, List.nodup_flatten]
  refine ⟨hground.1, ⟨?_, ?_⟩, ?_⟩
  · intro l hl
    obtain ⟨k, -, rfl⟩ := List.mem_map.mp hl
    exact Entry.nodup_pairs hg i k j _ _
  · rw [List.pairwise_map]
    have hrange : (List.range' (i + 1) (j - (i + 1))).Nodup := List.nodup_range'
    refine hrange.imp fun hne e he he' => ?_
    obtain ⟨m, n, b, c, -, -, p, -, rfl⟩ := Entry.mem_pairs.mp he
    obtain ⟨m', n', b', c', -, -, q, -, hq⟩ := Entry.mem_pairs.mp he'
    simp only [Entry.mk.injEq, Derivation.binary.injEq, EntryRef.mk.injEq, true_and] at hq
    exact hne hq.2.1.1
  · intro e he e' he' heq
    subst heq
    obtain ⟨l, hl, hm⟩ := List.mem_flatten.mp he'
    obtain ⟨k, -, rfl⟩ := List.mem_map.mp hl
    obtain ⟨m, n, b, c, -, -, p, -, rfl⟩ := Entry.mem_pairs.mp hm
    cases hground.2 _ he

end SpanTable

namespace Chart

variable {g : Grammar} {tokens : List String} {c : Chart} {r : EntryRef} {e : Entry} {t : Tree}

theorem exists_get_of_tree (ht : c.tree r = .ok t) : ∃ e, c.get r = .ok e := by
  cases hget : c.get r with
  | ok e => exact ⟨e, rfl⟩
  | error _ =>
    rw [Chart.tree, hget] at ht
    simp [bind, Except.bind] at ht

theorem tree_of_leaf (he : c.get r = .ok e) (hd : e.derivation = .leaf) (ht : c.tree r = .ok t) :
    t.shape = .branch e.symbol e.symbol [.leaf (c.tokens.getD r.row "") r.span] := by
  obtain rfl := Except.ok.inj ((tree_leaf he hd).symm.trans ht)
  rfl

/-- The tree of a unit entry is a branch over the tree that it refers to. -/
theorem tree_of_unit {child : EntryRef} (he : c.get r = .ok e) (hd : e.derivation = .unit child)
    (ht : c.tree r = .ok t) :
    ∃ u, c.tree child = .ok u ∧ t.shape = Shape.above e.symbol [u.shape] := by
  rw [Chart.tree, he] at ht
  simp only [bind, Except.bind, hd] at ht
  split at ht
  · cases hu : c.tree child with
    | error _ => simp [hu] at ht
    | ok u =>
      simp only [hu, pure, Except.pure, Except.ok.injEq] at ht
      exact ⟨u, rfl, by rw [← ht]; rfl⟩
  · cases ht

/-- The tree of a binary entry is a branch over the two trees that it refers to. -/
theorem tree_of_binary {left right : EntryRef} (he : c.get r = .ok e)
    (hd : e.derivation = .binary left right) (ht : c.tree r = .ok t) :
    ∃ u v, c.tree left = .ok u ∧ c.tree right = .ok v ∧
      t.shape = .branch e.symbol e.symbol [u.shape, v.shape] := by
  rw [Chart.tree, he] at ht
  simp only [bind, Except.bind, hd] at ht
  split at ht
  · split at ht
    · cases hu : c.tree left with
      | error _ => simp [hu] at ht
      | ok u =>
        cases hv : c.tree right with
        | error _ => simp [hu, hv] at ht
        | ok v =>
          simp only [hu, hv, pure, Except.pure, Except.ok.injEq] at ht
          refine ⟨u, v, rfl, rfl, ?_⟩
          rw [← ht]
          exact Shape.above_of_two_le (Nat.le_refl 2)
    · cases ht
  · cases ht

/-- What lies below a base: its token, or the two shapes that it refers to. -/
def Below (c : Chart) (i j : Nat) (e : Entry) (cs : List Shape) : Prop :=
  match e.derivation with
  | .leaf => cs = [.leaf (c.tokens.getD i "") ⟨i, j⟩]
  | .unit _ => False
  | .binary left right =>
    ∃ u v, c.tree left = .ok u ∧ c.tree right = .ok v ∧ cs = [u.shape, v.shape]

section Filled

variable {table : Grid (List Entry)} (hfill : SpanTable.fill (List Entry) g tokens = .ok table)

include hfill

/-- The tree of an item is a chain from its symbol down to the base of its lane. -/
theorem shape_of_item {i j idx : Nat} (hi : i < j) (hj : j ≤ tokens.length)
    {item : UnitClosure.Item}
    (hitem : (Entry.items g (SpanTable.bases g tokens table.get i j))[idx]? = some item) {t : Tree}
    (ht : Chart.tree ⟨tokens, table⟩ ⟨i, j, idx⟩ = .ok t) :
    ∃ e cs, (SpanTable.bases g tokens table.get i j)[item.lane]? = some e ∧
      Below ⟨tokens, table⟩ i j e cs ∧ t.shape = .branch item.symbol e.symbol cs := by
  have hcell := SpanTable.get_eq_items hfill hi hj
  generalize hpre : SpanTable.bases g tokens table.get i j = pre at hitem hcell ⊢
  have hget : ∀ m item, (Entry.items g pre)[m]? = some item →
      Chart.get ⟨tokens, table⟩ ⟨i, j, m⟩ = .ok (Entry.ofItem i j pre item) := by
    intro m item hm
    refine get_eq_ok_iff.mpr ⟨hi, hj, ?_⟩
    rw [hcell, List.getElem?_map, hm]
    rfl
  induction idx using Nat.strongRecOn generalizing item t with
  | ind idx ih =>
    have he := hget idx item hitem
    cases hv : item.via with
    | none =>
      obtain ⟨hlane, e, hbase, hsymbol⟩ := Entry.base_of_via_none hitem hv
      have hof : Entry.ofItem i j pre item = e := by simp [Entry.ofItem, hv, hlane, hbase]
      rw [hof] at he
      rw [hsymbol, hlane]
      have hmem : e ∈ SpanTable.bases g tokens table.get i j := hpre ▸ List.mem_of_getElem? hbase
      obtain ⟨rfl, w, hw, p, -, rfl⟩ | ⟨k, -, -, m, n, b, b', -, -, p, -, rfl⟩ :=
        (SpanTable.mem_bases hj).mp hmem
      · exact ⟨_, _, hbase, rfl, tree_of_leaf he rfl ht⟩
      · obtain ⟨u, v, hu, hv, hshape⟩ := tree_of_binary he rfl ht
        exact ⟨_, _, hbase, ⟨u, v, hu, hv, rfl⟩, hshape⟩
    | some v =>
      obtain ⟨hlt, source, hsource, hlane, -⟩ := Entry.items_linked hitem hv
      have hof : Entry.ofItem i j pre item = ⟨item.symbol, .unit ⟨i, j, v⟩⟩ := by
        simp [Entry.ofItem, hv]
      rw [hof] at he
      obtain ⟨u, hu, hshape⟩ := tree_of_unit he rfl ht
      obtain ⟨e, cs, hbase, hbelow, hchain⟩ := ih v hlt hu hsource
      rw [hlane] at hbase
      exact ⟨e, cs, hbase, hbelow, by rw [hshape, hchain, Shape.above_branch]⟩

end Filled

/-- Bases for one symbol with the same shapes below them are the same, if that holds for the entries
they refer to. -/
theorem base_injective (h : g.chart tokens = .ok c) {cells : Nat → Nat → List Entry} {i j : Nat}
    (hj : j ≤ tokens.length) {d e : Entry} (hd : d ∈ SpanTable.bases g tokens cells i j)
    (he : e ∈ SpanTable.bases g tokens cells i j) (hsymbol : d.symbol = e.symbol) {cs : List Shape}
    (hdcs : Below c i j d cs) (hecs : Below c i j e cs)
    (hinner : ∀ a b m n (t u : Tree), b - a < j - i → c.tree ⟨a, b, m⟩ = .ok t →
      c.tree ⟨a, b, n⟩ = .ok u → t.shape = u.shape → m = n) : d = e := by
  obtain ⟨-, _, -, p, -, rfl⟩ | ⟨k, hik, hkj, m, n, _, _, -, -, p, -, rfl⟩ :=
    (SpanTable.mem_bases hj).mp hd
  · obtain ⟨-, _, -, q, -, rfl⟩ | ⟨l, -, -, m', n', _, _, -, -, q, -, rfl⟩ :=
      (SpanTable.mem_bases hj).mp he
    · exact congrArg (Entry.mk · _) hsymbol
    · obtain ⟨_, _, -, -, hpair⟩ := hecs
      have hlength := congrArg List.length (hdcs.symm.trans hpair)
      simp at hlength
  · obtain ⟨t, u, ht, hu, hpair⟩ := hdcs
    obtain ⟨-, _, -, q, -, rfl⟩ | ⟨l, -, -, m', n', _, _, -, -, q, -, rfl⟩ :=
      (SpanTable.mem_bases hj).mp he
    · have hlength := congrArg List.length (hpair.symm.trans hecs)
      simp at hlength
    · obtain ⟨t', u', ht', hu', hpair'⟩ := hecs
      obtain ⟨hleft, hright⟩ : t.shape = t'.shape ∧ u.shape = u'.shape := by
        simpa using hpair.symm.trans hpair'
      obtain ⟨_, hget⟩ := exists_get_of_tree ht
      obtain ⟨_, hget'⟩ := exists_get_of_tree ht'
      obtain ⟨v, hv, hspan⟩ := exists_tree h hget
      obtain ⟨v', hv', hspan'⟩ := exists_tree h hget'
      obtain rfl := Except.ok.inj (ht.symm.trans hv)
      obtain rfl := Except.ok.inj (ht'.symm.trans hv')
      -- equal shapes have equally many leaves, so both bases are split at one position
      obtain rfl : k = l := by
        rw [← hspan.length_leaves, ← hspan'.length_leaves, ← SyntaxTree.leaves_shape t, hleft,
          SyntaxTree.leaves_shape]
      obtain rfl := hinner i k m m' t t' (by omega) ht ht' hleft
      obtain rfl := hinner k j n n' u u' (by omega) hu hu' hright
      exact congrArg (Entry.mk · _) hsymbol

/-- In a cell of a chart with clear keys, no two entries have trees of the same shape. -/
theorem shape_injective (hg : g.HasClearKeys) (h : g.chart tokens = .ok c) {i j m n : Nat}
    {t u : Tree} (ht : c.tree ⟨i, j, m⟩ = .ok t) (hu : c.tree ⟨i, j, n⟩ = .ok u)
    (hshape : t.shape = u.shape) :
    m = n := by
  obtain ⟨table, hfill, rfl⟩ := chart_eq_ok_iff.mp h
  -- the entries that the bases of two entries refer to are over fewer tokens
  induction hw : j - i using Nat.strongRecOn generalizing i j m n t u with
  | ind w ih =>
    obtain ⟨a, ha⟩ := exists_get_of_tree ht
    obtain ⟨b, hb⟩ := exists_get_of_tree hu
    obtain ⟨hi, hj, ha⟩ := get_eq_ok_iff.mp ha
    obtain ⟨-, -, hb⟩ := get_eq_ok_iff.mp hb
    have hcell := SpanTable.get_eq_items hfill hi hj
    rw [hcell, List.getElem?_map, Option.map_eq_some_iff] at ha hb
    obtain ⟨x, hx, -⟩ := ha
    obtain ⟨y, hy, -⟩ := hb
    obtain ⟨d, cs, hd, hdcs, hdshape⟩ := shape_of_item hfill hi hj hx ht
    obtain ⟨e, cs', he, hecs, heshape⟩ := shape_of_item hfill hi hj hy hu
    rw [hdshape, heshape, Shape.branch.injEq] at hshape
    obtain ⟨hsymbol, hfoot, rfl⟩ := hshape
    obtain rfl : d = e :=
      base_injective h hj (List.mem_of_getElem? hd) (List.mem_of_getElem? he) hfoot
      hdcs hecs fun a b m n t u hlt ht hu hshape => ih (b - a) (hw ▸ hlt) hshape ht hu rfl
    obtain ⟨hlt, hdget⟩ := List.getElem?_eq_some_iff.mp hd
    obtain ⟨hlt', heget⟩ := List.getElem?_eq_some_iff.mp he
    have hlane : x.lane = y.lane :=
      ((SpanTable.nodup_bases hg).getElem_inj_iff).mp (hdget.trans heget.symm)
    exact Entry.items_once hx hy hlane hsymbol

/-- Every shape over a span is that of some entry of the cell. -/
theorem exists_shape (h : g.chart tokens = .ok c) {s : Symbol} {i j : Nat} {x : Shape}
    (hx : g.SpanShape tokens s i j x) : ∃ idx e t, c.get ⟨i, j, idx⟩ = .ok e ∧ e.symbol = s ∧
      c.tree ⟨i, j, idx⟩ = .ok t ∧ t.shape = x := by
  obtain ⟨table, hfill, rfl⟩ := chart_eq_ok_iff.mp h
  have hchain : ∀ {i j s e}, i < j → j ≤ tokens.length →
    e ∈ SpanTable.bases g tokens table.get i j →
      g.UnitReaches e.symbol s → ∃ idx a t cs, Chart.get ⟨tokens, table⟩ ⟨i, j, idx⟩ = .ok a ∧
        a.symbol = s ∧ Chart.tree ⟨tokens, table⟩ ⟨i, j, idx⟩ = .ok t ∧
          Below ⟨tokens, table⟩ i j e cs ∧ t.shape = .branch s e.symbol cs := by
    intro i j s e hi hj he hr
    obtain ⟨idx, item, hitem, hlane, rfl⟩ := Entry.exists_item he hr
    have hget : Chart.get ⟨tokens, table⟩ ⟨i, j, idx⟩ =
        .ok (Entry.ofItem i j (SpanTable.bases g tokens table.get i j) item) := by
      refine get_eq_ok_iff.mpr ⟨hi, hj, ?_⟩
      rw [SpanTable.get_eq_items hfill hi hj, List.getElem?_map, hitem]
      rfl
    obtain ⟨t, ht, -⟩ := exists_tree h hget
    obtain ⟨e', cs, he', hbelow, hshape⟩ := shape_of_item hfill hi hj hitem ht
    obtain rfl := Option.some.inj (hlane.symm.trans he')
    exact ⟨idx, _, t, cs, hget, Entry.symbol_ofItem (List.mem_of_getElem? hitem), ht,
      hbelow, hshape⟩
  induction hx with
  | @token i w p s hw hp hr =>
    have hj : i + 1 ≤ tokens.length := (List.getElem?_eq_some_iff.mp hw).1
    have hmem : ⟨p.lhs, .leaf⟩ ∈ SpanTable.bases g tokens table.get i (i + 1) :=
      (SpanTable.mem_bases hj).mpr (.inl ⟨rfl, w, hw, p, hp, rfl⟩)
    obtain ⟨idx, a, t, cs, hget, hs, ht, hbelow, hshape⟩ := hchain (Nat.lt_succ_self i) hj hmem hr
    have hw' : tokens.getD i "" = w := by rw [List.getD_eq_getElem?_getD, hw, Option.getD_some]
    obtain rfl : cs = [.leaf w ⟨i, i + 1⟩] := hw' ▸ hbelow
    exact ⟨idx, a, t, hget, hs, ht, hshape⟩
  | @binary i k j b b' s p x y hp hr hx hy ihx ihy =>
    obtain ⟨m, e, u, hge, rfl, hu, rfl⟩ := ihx
    obtain ⟨n, e', v, hge', rfl, hv, rfl⟩ := ihy
    have hik := hx.lt
    have hkj := hy.lt
    have hmem : ⟨p.lhs, .binary ⟨i, k, m⟩ ⟨k, j, n⟩⟩ ∈ SpanTable.bases g tokens table.get i j :=
      (SpanTable.mem_bases hkj.2).mpr (.inr ⟨k, hik.1, hkj.1, m, n, e, e',
        (get_eq_ok_iff.mp hge).2.2, (get_eq_ok_iff.mp hge').2.2, p, hp, rfl⟩)
    obtain ⟨idx, a, t, cs, hget, hs, ht, hbelow, hshape⟩ :=
      hchain (Nat.lt_trans hik.1 hkj.1) hkj.2 hmem hr
    obtain ⟨u', v', hu', hv', rfl⟩ := hbelow
    obtain rfl := Except.ok.inj (hu.symm.trans hu')
    obtain rfl := Except.ok.inj (hv.symm.trans hv')
    exact ⟨idx, a, t, hget, hs, ht, hshape⟩

/-- The trees of a chart with clear keys are all different. -/
theorem nodup_trees (hg : g.HasClearKeys) (h : g.chart tokens = .ok c) (s : Symbol) :
    (c.trees s).Nodup := by
  have hroots : (c.roots s).Pairwise fun a b => a ≠ b := by
    rw [roots, List.pairwise_filterMap]
    refine (Entry.pairwise_zipIdx c.whole).imp fun hlt a ha b hb heq => ?_
    split at ha
    · split at hb
      · cases ha
        cases hb
        exact Nat.ne_of_lt hlt (EntryRef.mk.inj heq).2.2
      · cases hb
    · cases ha
  rw [trees, List.Nodup, List.pairwise_filterMap]
  refine hroots.imp_of_mem fun ha hb hne t ht u hu heq => ?_
  obtain ⟨m, -, rfl, -⟩ := mem_roots.mp ha
  obtain ⟨k, -, rfl, -⟩ := mem_roots.mp hb
  have htree : ∀ r t, (c.tree r).toOption = some t → c.tree r = .ok t := by
    intro r t hr
    cases hx : c.tree r with
    | error _ => simp [hx, Except.toOption] at hr
    | ok u => simpa [hx, Except.toOption] using hr
  subst heq
  exact hne (congrArg _ (shape_injective hg h (htree _ _ ht) (htree _ _ hu) rfl))

/-- The trees of a chart have their symbol over the whole sentence. -/
theorem spanTree_of_mem_trees (h : g.chart tokens = .ok c) {s : Symbol} (ht : t ∈ c.trees s) :
    (∃ idx, c.tree ⟨0, tokens.length, idx⟩ = .ok t) ∧ g.SpanTree tokens s 0 tokens.length t := by
  have hsize := size_of_chart h
  obtain ⟨idx, e, he, rfl, htree⟩ := mem_trees.mp ht
  rw [hsize] at he htree
  obtain ⟨u, hu, hspan⟩ := exists_tree h he
  obtain rfl := Except.ok.inj (htree.symm.trans hu)
  exact ⟨⟨idx, htree⟩, hspan⟩

/-- The trees of a chart have every shape over the whole sentence. -/
theorem exists_mem_trees (h : g.chart tokens = .ok c) {s : Symbol} {x : Shape}
    (hx : g.SpanShape tokens s 0 tokens.length x) : ∃ t ∈ c.trees s, t.shape = x := by
  have hsize := size_of_chart h
  obtain ⟨idx, e, t, he, hs, ht, hshape⟩ := exists_shape h hx
  rw [← hsize] at he ht
  exact ⟨t, mem_trees.mpr ⟨idx, e, he, hs, ht⟩, hshape⟩

theorem eq_of_mem_trees (hg : g.HasClearKeys) (h : g.chart tokens = .ok c) {s : Symbol} {u : Tree}
    (ht : t ∈ c.trees s) (hu : u ∈ c.trees s) (hshape : t.shape = u.shape) : t = u := by
  obtain ⟨⟨m, ht⟩, -⟩ := spanTree_of_mem_trees h ht
  obtain ⟨⟨k, hu⟩, -⟩ := spanTree_of_mem_trees h hu
  obtain rfl := shape_injective hg h ht hu hshape
  exact Except.ok.inj (ht.symm.trans hu)

theorem exists_chart_of_spanTree {s : Symbol} (ht : g.SpanTree tokens s 0 tokens.length t) :
    ∃ c, g.chart tokens = .ok c := exists_chart_iff.mpr ht.spans.forall_known

end Chart

end Constituency
