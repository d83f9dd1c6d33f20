import Constituency.Chart.Basic
import Constituency.Proofs.Entries
import Constituency.Proofs.Filling

/-!
The references of a filled chart. An entry lies over a token, over an earlier entry of its own cell,
or over entries of two cells that make up its span, and a production over what it refers to gives
its symbol. So the tree below an entry is always found, and every branch of it is justified.
-/
namespace Constituency

/-- A tree over the tokens from one position up to another in which every branch has a production
over what lies below it, as far as look-ups by key tell. -/
inductive Grammar.SpanTree (g : Grammar) (tokens : List String) : Symbol → Nat → Nat → Tree → Prop
  | token {i : Nat} {t : String} {p : Production} (ht : tokens[i]? = some t)
      (hp : p ∈ g.byRhsKey (quote t)) :
      SpanTree g tokens p.lhs i (i + 1) (.branch p.lhs ⟨i, i + 1⟩ [.leaf t ⟨i, i + 1⟩])
  | unit {i j : Nat} {b : Symbol} {p : Production} {u : Tree} (hp : p ∈ g.byRhsKey b)
      (hb : SpanTree g tokens b i j u) : SpanTree g tokens p.lhs i j (.branch p.lhs ⟨i, j⟩ [u])
  | binary {i k j : Nat} {b c : Symbol} {p : Production} {u v : Tree}
      (hp : p ∈ g.byRhsKey (rhsKey [b, c])) (hb : SpanTree g tokens b i k u)
      (hc : SpanTree g tokens c k j v) : SpanTree g tokens p.lhs i j (.branch p.lhs ⟨i, j⟩ [u, v])

theorem Grammar.SpanTree.lt {g : Grammar} {tokens : List String} {s : Symbol} {i j : Nat} {t : Tree}
    (h : g.SpanTree tokens s i j t) : i < j ∧ j ≤ tokens.length := by
  induction h with
  | token ht _ =>
    have := (List.getElem?_eq_some_iff.mp ht).1
    omega
  | unit _ _ ih => exact ih
  | binary _ _ _ ihb ihc => omega

namespace EntryRef

theorem precedes_earlier {i j v idx : Nat} (h : v < idx) : Precedes ⟨i, j, v⟩ ⟨i, j, idx⟩ :=
  .inr ⟨rfl, h⟩

theorem precedes_left {i k j m idx : Nat} (hik : i < k) (hkj : k < j) :
    Precedes ⟨i, k, m⟩ ⟨i, j, idx⟩ := by
  left
  simp only [width]
  omega

theorem precedes_right {i k j m idx : Nat} (hik : i < k) (hkj : k < j) :
    Precedes ⟨k, j, m⟩ ⟨i, j, idx⟩ := by
  left
  simp only [width]
  omega

end EntryRef

namespace SpanTable

variable {g : Grammar} {tokens : List String}

/-- The entries of a cell before it is closed: over its token, or over its two parts at every inner
position. -/
def bases (g : Grammar) (tokens : List String) (cells : Nat → Nat → List Entry) (i j : Nat) :
    List Entry :=
  ground g tokens i j ++ ((List.range' (i + 1) (j - (i + 1))).map fun k =>
    Entry.pairs g i k j (cells i k) (cells k j)).flatten

/-- A cell of a filled chart lists its bases, and then what a search from them reaches. -/
theorem get_eq_closed {table : Grid (List Entry)} (h : fill (List Entry) g tokens = .ok table)
    {i j : Nat} (hi : i < j) (hj : j ≤ tokens.length) :
    table.get i j = bases g tokens table.get i j ++
      Entry.units g i j (bases g tokens table.get i j) := by
  rw [get_fill h hi hj]
  have hfold : (List.range' (i + 1) (j - (i + 1))).foldl (fun cell k =>
      cell ++ Entry.pairs g i k j (table.get i k) (table.get k j)) (ground g tokens i j) =
      bases g tokens table.get i j := List.foldl_append_eq_append
  rw [← hfold]
  rfl

/-- The entries of a cell are the items of its search. -/
theorem get_eq_items {table : Grid (List Entry)} (h : fill (List Entry) g tokens = .ok table)
    {i j : Nat} (hi : i < j) (hj : j ≤ tokens.length) :
    table.get i j = (Entry.items g (bases g tokens table.get i j)).map
      (Entry.ofItem i j (bases g tokens table.get i j)) := by
  rw [← Entry.closed_eq_map]
  exact get_eq_closed h hi hj

/-- What a base is built of. -/
theorem mem_bases {cells : Nat → Nat → List Entry} {i j : Nat} (hj : j ≤ tokens.length)
    {e : Entry} :
    e ∈ bases g tokens cells i j ↔
      (j = i + 1 ∧ ∃ t, tokens[i]? = some t ∧ ∃ p ∈ g.byRhsKey (quote t), e = ⟨p.lhs, .leaf⟩) ∨
      ∃ k, i < k ∧ k < j ∧ ∃ m n b c, (cells i k)[m]? = some b ∧ (cells k j)[n]? = some c ∧
        ∃ p ∈ g.byRhsKey (rhsKey [b.symbol, c.symbol]),
          e = ⟨p.lhs, .binary ⟨i, k, m⟩ ⟨k, j, n⟩⟩ := by
  have hground : e ∈ (ground g tokens i j : List Entry) ↔
      j = i + 1 ∧ ∃ t, tokens[i]? = some t ∧ ∃ p ∈ g.byRhsKey (quote t), e = ⟨p.lhs, .leaf⟩ := by
    by_cases h : j = i + 1
    · subst h
      obtain ⟨t, ht⟩ : ∃ t, tokens[i]? = some t := ⟨_, List.getElem?_eq_getElem hj⟩
      rw [ground_token ht]
      change e ∈ Entry.leaves _ ↔ _
      simp [Entry.leaves, ht, eq_comm]
    · rw [ground_other h]
      simp [h, default]
  rw [bases, List.mem_append, hground, List.mem_flatten]
  refine or_congr_right ?_
  simp only [List.mem_map, exists_exists_and_eq_and, List.mem_range'_1, Entry.mem_pairs]
  constructor
  · intro ⟨k, hk, h⟩
    exact ⟨k, by omega, by omega, h⟩
  · intro ⟨k, hik, hkj, h⟩
    exact ⟨k, by omega, h⟩

/-- What an entry says of itself is borne out by the cells it refers to. -/
def Supported (g : Grammar) (tokens : List String) (cells : Nat → Nat → List Entry) (i j idx : Nat)
    (e : Entry) : Prop :=
  match e.derivation with
  | .leaf => j = i + 1 ∧ ∃ t, tokens[i]? = some t ∧ ∃ p ∈ g.byRhsKey (quote t), p.lhs = e.symbol
  | .unit r =>
    ∃ v b, r = ⟨i, j, v⟩ ∧ v < idx ∧ (cells i j)[v]? = some b ∧ g.UnitStep b.symbol e.symbol
  | .binary l r => ∃ k m n b c, i < k ∧ k < j ∧ l = ⟨i, k, m⟩ ∧ r = ⟨k, j, n⟩ ∧
      (cells i k)[m]? = some b ∧ (cells k j)[n]? = some c ∧
      ∃ p ∈ g.byRhsKey (rhsKey [b.symbol, c.symbol]), p.lhs = e.symbol

/-- The entries of a filled chart are supported. -/
theorem supported_of_fill {table : Grid (List Entry)} (h : fill (List Entry) g tokens = .ok table)
    {i j idx : Nat} (hi : i < j) (hj : j ≤ tokens.length) {e : Entry}
    (he : (table.get i j)[idx]? = some e) : Supported g tokens table.get i j idx e := by
  have hitems := get_eq_items h hi hj
  generalize hpre : bases g tokens table.get i j = pre at hitems
  rw [hitems, List.getElem?_map, Option.map_eq_some_iff] at he
  obtain ⟨item, hitem, rfl⟩ := he
  cases hv : item.via with
  | some v =>
    obtain ⟨hlt, source, hsource, -, hstep⟩ := Entry.items_linked hitem hv
    have hs : (Entry.ofItem i j pre source).symbol = source.symbol :=
      Entry.symbol_ofItem (List.mem_of_getElem? hsource)
    simp only [Supported, Entry.ofItem, hv]
    refine ⟨v, Entry.ofItem i j pre source, rfl, hlt, ?_, by rw [hs]; exact hstep⟩
    rw [hitems, List.getElem?_map, hsource]
    rfl
  | none =>
    obtain ⟨hlane, e, he, -⟩ := Entry.base_of_via_none hitem hv
    have hof : Entry.ofItem i j pre item = e := by simp [Entry.ofItem, hv, hlane, he]
    rw [hof]
    have hmem : e ∈ bases g tokens table.get i j := hpre ▸ List.mem_of_getElem? he
    obtain ⟨rfl, t, ht, p, hp, rfl⟩ | ⟨k, hik, hkj, m, n, b, c, hb, hc, p, hp, rfl⟩ :=
      (mem_bases hj).mp hmem
    · exact ⟨rfl, t, ht, p, hp, rfl⟩
    · exact ⟨k, m, n, b, c, hik, hkj, rfl, rfl, hb, hc, p, hp, rfl⟩

end SpanTable

namespace Chart

variable {g : Grammar} {tokens : List String} {c : Chart}

theorem chart_eq_ok_iff : g.chart tokens = .ok c ↔
    ∃ table, SpanTable.fill (List Entry) g tokens = .ok table ∧ c = ⟨tokens, table⟩ := by
  unfold Grammar.chart
  cases SpanTable.fill (List Entry) g tokens <;> simp [Except.map, eq_comm]

/-- There is a chart exactly when the lexicon knows every token. -/
theorem exists_chart_iff : (∃ c, g.chart tokens = .ok c) ↔ ∀ t ∈ tokens, SpanTable.Known g t := by
  have hfill : (∃ table, SpanTable.fill (List Entry) g tokens = .ok table) ↔ _ :=
    SpanTable.exists_fill_iff
  rw [← hfill]
  simp only [chart_eq_ok_iff, exists_comm (α := Chart), exists_and_left, exists_eq, and_true]

theorem chart_eq_error_iff {e : UnknownToken} :
    g.chart tokens = .error e ↔ SpanTable.lexicon g 0 tokens = .error e := by
  have hfill : SpanTable.fill (List Entry) g tokens = .error e ↔ _ := SpanTable.fill_eq_error_iff
  rw [← hfill, Grammar.chart]
  cases SpanTable.fill (List Entry) g tokens <;> simp [Except.map]

theorem tokens_of_chart (h : g.chart tokens = .ok c) : c.tokens = tokens := by
  obtain ⟨table, -, rfl⟩ := chart_eq_ok_iff.mp h
  rfl

theorem size_of_chart (h : g.chart tokens = .ok c) : c.size = tokens.length := by
  obtain ⟨table, -, rfl⟩ := chart_eq_ok_iff.mp h
  rfl

theorem cell_of_chart (h : g.chart tokens = .ok c) {i j : Nat} (hi : i < j)
    (hj : j ≤ tokens.length) :
    c.cell i j = .ok (c.cells.get i j) := by
  rw [← size_of_chart h] at hj
  exact if_pos ⟨hi, hj⟩

theorem cell_eq_ok_iff {i j : Nat} {cell : List Entry} : c.cell i j = .ok cell ↔
    i < j ∧ j ≤ c.tokens.length ∧ c.cells.get i j = cell := by
  unfold Chart.cell Chart.size
  by_cases h : i < j ∧ j ≤ c.tokens.length
  · simp [h]
  · simp only [h, if_false, reduceCtorEq, false_iff]
    exact fun hr => h ⟨hr.1, hr.2.1⟩

theorem get_eq_ok_iff {i j idx : Nat} {e : Entry} : c.get ⟨i, j, idx⟩ = .ok e ↔
    i < j ∧ j ≤ c.tokens.length ∧ (c.cells.get i j)[idx]? = some e := by
  unfold Chart.get Chart.cell Chart.size
  by_cases h : i < j ∧ j ≤ c.tokens.length
  · simp only [h, and_self, if_true, true_and]
    cases (c.cells.get i j)[idx]? <;> simp
  · simp only [h, if_false, reduceCtorEq, false_iff]
    exact fun hr => h ⟨hr.1, hr.2.1⟩

theorem tree_leaf {r : EntryRef} {e : Entry} (h : c.get r = .ok e) (hd : e.derivation = .leaf) :
    c.tree r = .ok (.branch e.symbol r.span [.leaf (c.tokens.getD r.row "") r.span]) := by
  rw [Chart.tree, h]
  simp [hd, bind, Except.bind, pure, Except.pure]

theorem tree_unit {r child : EntryRef} {e : Entry} {t : Tree} (h : c.get r = .ok e)
    (hd : e.derivation = .unit child) (hp : child.Precedes r) (ht : c.tree child = .ok t) :
    c.tree r = .ok (.branch e.symbol r.span [t]) := by
  rw [Chart.tree, h]
  simp [hd, hp, ht, bind, Except.bind, pure, Except.pure]

theorem tree_binary {r left right : EntryRef} {e : Entry} {t u : Tree} (h : c.get r = .ok e)
    (hd : e.derivation = .binary left right) (hl : left.Precedes r) (hr : right.Precedes r)
    (ht : c.tree left = .ok t) (hu : c.tree right = .ok u) :
    c.tree r = .ok (.branch e.symbol r.span [t, u]) := by
  rw [Chart.tree, h]
  simp [hd, hl, hr, ht, hu, bind, Except.bind, pure, Except.pure]

/-- What holds of an entry as soon as it holds of the entries that it refers to holds of every
entry. -/
theorem get_induction (h : g.chart tokens = .ok c) {motive : Nat → Nat → Nat → Entry → Prop}
    (leaf : ∀ {i idx : Nat} {w : String} {p : Production}, tokens[i]? = some w →
      p ∈ g.byRhsKey (quote w) →
      c.get ⟨i, i + 1, idx⟩ = .ok ⟨p.lhs, .leaf⟩ → motive i (i + 1) idx ⟨p.lhs, .leaf⟩)
    (unit : ∀ {i j idx v : Nat} {b : Entry} {p : Production}, p ∈ g.byRhsKey b.symbol → v < idx →
      c.get ⟨i, j, v⟩ = .ok b → c.get ⟨i, j, idx⟩ = .ok ⟨p.lhs, .unit ⟨i, j, v⟩⟩ → motive i j v b →
      motive i j idx ⟨p.lhs, .unit ⟨i, j, v⟩⟩)
    (binary : ∀ {i k j idx m n : Nat} {b b' : Entry} {p : Production},
      p ∈ g.byRhsKey (rhsKey [b.symbol, b'.symbol]) → i < k → k < j → c.get ⟨i, k, m⟩ = .ok b →
      c.get ⟨k, j, n⟩ = .ok b' → c.get ⟨i, j, idx⟩ = .ok ⟨p.lhs, .binary ⟨i, k, m⟩ ⟨k, j, n⟩⟩ →
      motive i k m b → motive k j n b' → motive i j idx ⟨p.lhs, .binary ⟨i, k, m⟩ ⟨k, j, n⟩⟩)
    {i j idx : Nat} {e : Entry} (he : c.get ⟨i, j, idx⟩ = .ok e) : motive i j idx e := by
  obtain ⟨table, hfill, rfl⟩ := chart_eq_ok_iff.mp h
  -- by the width of the span, and within a cell by the position in it
  induction hw : j - i using Nat.strongRecOn generalizing i j idx e with
  | ind w ihw =>
    induction idx using Nat.strongRecOn generalizing e with
    | ind idx ihidx =>
      obtain ⟨hi, hj, hcell⟩ := get_eq_ok_iff.mp he
      have hs := SpanTable.supported_of_fill hfill hi hj hcell
      obtain ⟨s, d⟩ := e
      cases d with
      | leaf =>
        obtain ⟨rfl, w, hw, p, hp, rfl⟩ := hs
        exact leaf hw hp he
      | unit r =>
        obtain ⟨v, b, rfl, hlt, hb, p, hp, rfl⟩ := hs
        have hget := get_eq_ok_iff.mpr ⟨hi, hj, hb⟩
        exact unit hp hlt hget he (ihidx v hlt hget)
      | binary l r =>
        obtain ⟨k, m, n, b, b', hik, hkj, rfl, rfl, hb, hb', p, hp, rfl⟩ := hs
        have hleft := get_eq_ok_iff.mpr ⟨hik, Nat.le_trans (Nat.le_of_lt hkj) hj, hb⟩
        have hright := get_eq_ok_iff.mpr ⟨hkj, hj, hb'⟩
        exact binary hp hik hkj hleft hright he (ihw (k - i) (by omega) hleft rfl)
          (ihw (j - k) (by omega) hright rfl)

/-- The tree below every entry is found, and each of its branches has a production. -/
theorem exists_tree (h : g.chart tokens = .ok c) {i j idx : Nat} {e : Entry}
    (he : c.get ⟨i, j, idx⟩ = .ok e) :
    ∃ t, c.tree ⟨i, j, idx⟩ = .ok t ∧ g.SpanTree tokens e.symbol i j t := by
  refine get_induction h (motive := fun i j idx e =>
    ∃ t, c.tree ⟨i, j, idx⟩ = .ok t ∧ g.SpanTree tokens e.symbol i j t) ?leaf ?unit ?binary he
  case leaf =>
    intro i idx w p hw hp he
    have hword : c.tokens.getD i "" = w := by
      rw [tokens_of_chart h, List.getD_eq_getElem?_getD, hw, Option.getD_some]
    refine ⟨_, tree_leaf he rfl, ?_⟩
    simp only [hword]
    exact .token hw hp
  case unit =>
    intro i j idx v b p hp hlt _ he ⟨t, ht, hspan⟩
    exact ⟨_, tree_unit he rfl (EntryRef.precedes_earlier hlt) ht, .unit hp hspan⟩
  case binary =>
    intro i k j idx m n b b' p hp hik hkj _ _ he ⟨t, ht, hleft⟩ ⟨u, hu, hright⟩
    have hbinary :=
      tree_binary he rfl (EntryRef.precedes_left hik hkj) (EntryRef.precedes_right hik hkj) ht hu
    exact ⟨_, hbinary, .binary hp hleft hright⟩

/-- A root is an entry over the whole input. -/
theorem mem_roots {s : Symbol} {r : EntryRef} :
    r ∈ c.roots s ↔ ∃ idx e, r = ⟨0, c.size, idx⟩ ∧ c.get ⟨0, c.size, idx⟩ = .ok e ∧
      e.symbol = s := by
  simp only [roots, List.mem_filterMap, Prod.exists, List.mem_zipIdx_iff_getElem?]
  have hwhole : ∀ (idx : Nat) (e : Entry), c.whole[idx]? = some e ↔
      c.get ⟨0, c.size, idx⟩ = .ok e := by
    intro idx e
    unfold whole isEmpty
    rw [get_eq_ok_iff]
    by_cases h : c.size = 0
    · have hl : c.tokens.length = 0 := h
      simp [h, hl]
    · have hl : 0 < c.tokens.length := Nat.pos_of_ne_zero h
      have hb : ¬ (c.size == 0) = true := by simpa using h
      rw [if_neg hb]
      simp only [size, hl, Nat.le_refl, true_and]
  constructor
  · intro ⟨e, idx, he, hr⟩
    split at hr
    · next hs => exact ⟨idx, e, (Option.some.inj hr).symm, (hwhole idx e).mp he, hs⟩
    · cases hr
  · intro ⟨idx, e, hr, he, hs⟩
    exact ⟨e, idx, (hwhole idx e).mpr he, by rw [if_pos hs, hr]⟩

theorem mem_trees {s : Symbol} {t : Tree} :
    t ∈ c.trees s ↔ ∃ idx e, c.get ⟨0, c.size, idx⟩ = .ok e ∧ e.symbol = s ∧
      c.tree ⟨0, c.size, idx⟩ = .ok t := by
  simp only [trees, List.mem_filterMap, mem_roots]
  constructor
  · intro ⟨r, ⟨idx, e, hr, he, hs⟩, ht⟩
    subst hr
    refine ⟨idx, e, he, hs, ?_⟩
    cases htree : c.tree ⟨0, c.size, idx⟩ with
    | error _ => simp [htree, Except.toOption] at ht
    | ok u => simpa [htree, Except.toOption] using ht
  · intro ⟨idx, e, he, hs, ht⟩
    exact ⟨_, ⟨idx, e, rfl, he, hs⟩, by simp [ht, Except.toOption]⟩

end Chart

end Constituency
