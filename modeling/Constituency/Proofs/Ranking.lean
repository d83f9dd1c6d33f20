import Constituency.Proofs.Breadth
import Constituency.Proofs.Pruning

/-!
The order of the entries in a cell. The bases come first: over a token in the order of the grammar,
and over two parts in the order of their ranks, which compare where the span is divided, then the
two parts by their positions, then the productions. Behind the bases, units are in the order of what
they are over.
-/
namespace Constituency

/-- What ranks a binary entry: where its span is divided, the positions of its parts in their cells,
and the position of its production in the grammar. -/
structure Rank where
  split : Nat
  left : Nat
  right : Nat
  production : Nat
  deriving DecidableEq, Repr

/-- The first difference decides. -/
def Rank.Before (r s : Rank) : Prop :=
  r.split < s.split ∨ (r.split = s.split ∧ (r.left < s.left ∨ (r.left = s.left ∧
    (r.right < s.right ∨ (r.right = s.right ∧ r.production < s.production)))))

namespace Entry

variable {g : Grammar} {i k j : Nat} {left right : List Entry}

/-- The entries over two cells with their ranks. -/
def ranked (g : Grammar) (i k j : Nat) (left right : List Entry) : List (Entry × Rank) :=
  left.zipIdx.flatMap fun b =>
    right.zipIdx.flatMap fun c =>
      (g.productions.zipIdx.filter fun p => p.1.rhs = [b.1.symbol, c.1.symbol]).map fun p =>
        (⟨p.1.lhs, .binary ⟨i, k, b.2⟩ ⟨k, j, c.2⟩⟩, ⟨k, b.2, c.2, p.2⟩)

theorem mem_ranked {e : Entry} {r : Rank} : (e, r) ∈ ranked g i k j left right ↔ r.split = k ∧
    ∃ b c p, left[r.left]? = some b ∧ right[r.right]? = some c ∧
      g.productions[r.production]? = some p ∧
      p.rhs = [b.symbol, c.symbol] ∧ e = ⟨p.lhs, .binary ⟨i, k, r.left⟩ ⟨k, j, r.right⟩⟩ := by
  simp only [ranked, List.mem_flatMap, List.mem_map, List.mem_filter, Prod.exists,
    List.mem_zipIdx_iff_getElem?, decide_eq_true_eq, Prod.mk.injEq]
  constructor
  · rintro ⟨b, m, hb, c, n, hc, p, q, ⟨hp, hrhs⟩, rfl, rfl⟩
    exact ⟨rfl, b, c, p, hb, hc, hp, hrhs, rfl⟩
  · rintro ⟨rfl, b, c, p, hb, hc, hp, hrhs, rfl⟩
    exact ⟨b, _, hb, c, _, hc, p, _, ⟨hp, hrhs⟩, rfl, rfl⟩

/-- They are listed in the order of their ranks. -/
theorem pairwise_ranked : (ranked g i k j left right).Pairwise fun x y => x.2.Before y.2 := by
  rw [ranked, List.pairwise_flatMap]
  refine ⟨fun b _ => ?_, (pairwise_zipIdx left).imp fun hlt x hx y hy => ?_⟩
  · rw [List.pairwise_flatMap]
    refine ⟨fun c _ => ?_, (pairwise_zipIdx right).imp fun hlt x hx y hy => ?_⟩
    · rw [List.pairwise_map]
      refine ((pairwise_zipIdx g.productions).filter _).imp fun hlt => ?_
      exact .inr ⟨rfl, .inr ⟨rfl, .inr ⟨rfl, hlt⟩⟩⟩
    · obtain ⟨_, -, rfl⟩ := List.mem_map.mp hx
      obtain ⟨_, -, rfl⟩ := List.mem_map.mp hy
      exact .inr ⟨rfl, .inr ⟨rfl, .inl hlt⟩⟩
  · simp only [List.mem_flatMap, List.mem_map] at hx hy
    obtain ⟨_, -, _, -, rfl⟩ := hx
    obtain ⟨_, -, _, -, rfl⟩ := hy
    exact .inr ⟨rfl, .inl hlt⟩

/-- When no symbol holds a space, they are all that combining the cells adds. -/
theorem map_fst_ranked (hg : g.HasClearKeys) (hleft : ∀ e ∈ left, SpaceFree e.symbol)
    (hright : ∀ e ∈ right, SpaceFree e.symbol) :
    (ranked g i k j left right).map Prod.fst = pairs g i k j left right := by
  simp only [ranked, pairs, List.map_flatMap, List.map_map]
  refine List.flatMap_congr fun b hb => List.flatMap_congr fun c hc => ?_
  have hfree : ∀ s ∈ [b.1.symbol, c.1.symbol], SpaceFree s := by
    simpa using ⟨hleft _ (List.fst_mem_of_mem_zipIdx hb), hright _ (List.fst_mem_of_mem_zipIdx hc)⟩
  have hfound : g.byRhsKey (rhsKey [b.1.symbol, c.1.symbol]) =
      (g.productions.zipIdx.filter fun p => p.1.rhs = [b.1.symbol, c.1.symbol]).map Prod.fst := by
    have hfilter := Grammar.byRhs_eq_filter hg (List.cons_ne_nil _ _) hfree
    rw [Grammar.byRhs] at hfilter
    rw [hfilter]
    conv_lhs => rw [← List.zipIdx_map_fst 0 g.productions, List.filter_map]
    rfl
  rw [hfound, List.map_map]
  rfl

/-- The entries that closing a cell adds are in the order of what they are over. -/
theorem exists_refs_units (g : Grammar) (i j : Nat) (cell : List Entry) : ∃ refs : List Nat,
    (units g i j cell).map derivation = refs.map (fun v => .unit ⟨i, j, v⟩) ∧
    refs.Pairwise (· ≤ ·) := by
  have hsorted := (UnitClosure.breadth_close (g := g) (nodup_lanes cell) lanes_lt).sorted
  have hunits : units g i j cell = (items g cell).filterMap fun item =>
      item.via.map fun v => ⟨item.symbol, .unit ⟨i, j, v⟩⟩ := rfl
  refine ⟨(items g cell).filterMap UnitClosure.Item.via, ?_, ?_⟩
  · rw [hunits, List.map_filterMap, List.map_filterMap]
    simp [Function.comp_def]
  · rw [List.pairwise_filterMap]
    refine hsorted.imp fun h v hv w hw => ?_
    obtain ⟨w', hw', hle⟩ := h v hv
    rwa [Option.some.inj (hw.symm.trans hw')]

end Entry

namespace SpanTable

variable {g : Grammar} {tokens : List String} {cells : Nat → Nat → List Entry} {i j : Nat}

/-- The bases over a token are in grammar order. -/
theorem bases_token (hg : g.HasClearKeys) {t : String} (ht : tokens[i]? = some t)
    (hfree : SpaceFree t) :
    bases g tokens cells i (i + 1) =
      (g.productions.filter fun p => p.rhs = [quote t]).map fun p => ⟨p.lhs, .leaf⟩ := by
  have hfilter :=
    Grammar.byRhs_eq_filter hg (List.cons_ne_nil (quote t) []) (by simpa using hfree.quote)
  rw [bases, ground_token ht, Nat.sub_self, List.range'_zero, List.map_nil, List.flatten_nil,
    List.append_nil]
  exact congrArg Entry.leaves hfilter

/-- The entries over two parts with their ranks. -/
def ranked (g : Grammar) (cells : Nat → Nat → List Entry) (i j : Nat) : List (Entry × Rank) :=
  (List.range' (i + 1) (j - (i + 1))).flatMap fun k => Entry.ranked g i k j (cells i k) (cells k j)

theorem mem_ranked {e : Entry} {r : Rank} :
    (e, r) ∈ ranked g cells i j ↔ i < r.split ∧ r.split < j ∧
    ∃ b c p, (cells i r.split)[r.left]? = some b ∧ (cells r.split j)[r.right]? = some c ∧
      g.productions[r.production]? = some p ∧ p.rhs = [b.symbol, c.symbol] ∧
      e = ⟨p.lhs, .binary ⟨i, r.split, r.left⟩ ⟨r.split, j, r.right⟩⟩ := by
  simp only [ranked, List.mem_flatMap, List.mem_range'_1, Entry.mem_ranked]
  constructor
  · rintro ⟨k, hk, rfl, h⟩
    exact ⟨by omega, by omega, h⟩
  · rintro ⟨hi, hj, h⟩
    exact ⟨r.split, by omega, rfl, h⟩

theorem pairwise_ranked : (ranked g cells i j).Pairwise fun x y => x.2.Before y.2 := by
  have hsplits : (List.range' (i + 1) (j - (i + 1))).Pairwise (· < ·) := List.pairwise_lt_range'
  rw [ranked, List.pairwise_flatMap]
  refine ⟨fun k _ => Entry.pairwise_ranked, hsplits.imp fun hlt x hx y hy => .inl ?_⟩
  rwa [(Entry.mem_ranked.mp hx).1, (Entry.mem_ranked.mp hy).1]

theorem bases_eq_ranked (hg : g.HasClearKeys) (h : i + 1 < j)
    (hfree : ∀ k, i < k → k < j →
      (∀ e ∈ cells i k, SpaceFree e.symbol) ∧ ∀ e ∈ cells k j, SpaceFree e.symbol) :
    bases g tokens cells i j = (ranked g cells i j).map Prod.fst := by
  have hground : (ground g tokens i j : List Entry) = [] := ground_other (by omega)
  rw [bases, hground, List.nil_append, ← List.flatMap_def, ranked, List.map_flatMap]
  refine List.flatMap_congr fun k hk => ?_
  rw [List.mem_range'_1] at hk
  obtain ⟨hleft, hright⟩ := hfree k (by omega) (by omega)
  exact (Entry.map_fst_ranked hg hleft hright).symm

end SpanTable

namespace Chart

/-- The entry has this rank over a span: the production applies to the entries at the two
positions. -/
inductive Ranked (g : Grammar) (c : Chart) (i j : Nat) : Entry → Rank → Prop
  | intro {r : Rank} {b b' : Entry} {p : Production} (hb : c.get ⟨i, r.split, r.left⟩ = .ok b)
      (hb' : c.get ⟨r.split, j, r.right⟩ = .ok b') (hp : g.productions[r.production]? = some p)
      (hrhs : p.rhs = [b.symbol, b'.symbol]) :
      Ranked g c i j ⟨p.lhs, .binary ⟨i, r.split, r.left⟩ ⟨r.split, j, r.right⟩⟩ r

variable {g : Grammar} {tokens : List String} {c : Chart} {i j : Nat}

theorem ranked_iff (hj : j ≤ c.tokens.length) {e : Entry} {r : Rank} :
    c.Ranked g i j e r ↔ (e, r) ∈ SpanTable.ranked g c.cells.get i j := by
  rw [SpanTable.mem_ranked]
  constructor
  · rintro ⟨hb, hb', hp, hrhs⟩
    obtain ⟨hi, -, hb⟩ := get_eq_ok_iff.mp hb
    obtain ⟨hj, -, hb'⟩ := get_eq_ok_iff.mp hb'
    exact ⟨hi, hj, _, _, _, hb, hb', hp, hrhs, rfl⟩
  · rintro ⟨hi, hk, b, b', p, hb, hb', hp, hrhs, rfl⟩
    exact .intro (get_eq_ok_iff.mpr ⟨hi, by omega, hb⟩) (get_eq_ok_iff.mpr ⟨hk, hj, hb'⟩) hp hrhs

end Chart

/-- The order of a cell of a loaded grammar. Bases come before units. Over a token the bases are in
grammar order. Over more tokens they are all entries that have a rank, and in the order of their
ranks. Units never lie over an earlier position than the unit before them. -/
theorem cell_order {text : String} {g : Grammar} (hload : Grammar.load text = .ok g)
    {tokens : List String} (hwords : ∀ t ∈ tokens, Blankless t) {c : Chart}
    (hc : g.chart tokens = .ok c) {i j : Nat} (hi : i < j) (hj : j ≤ tokens.length) :
    ∃ bases units, c.cell i j = .ok (bases ++ units) ∧
      (∀ t, j = i + 1 → tokens[i]? = some t →
        bases = (g.productions.filter fun p => p.rhs = [quote t]).map fun p => ⟨p.lhs, .leaf⟩) ∧
      (i + 1 < j → ∃ ranked : List (Entry × Rank), bases = ranked.map Prod.fst ∧
        ranked.Pairwise (fun x y => x.2.Before y.2) ∧ ∀ e r, (e, r) ∈ ranked ↔ c.Ranked g i j e r) ∧
      ∃ refs : List Nat, units.map Entry.derivation = refs.map (fun v => .unit ⟨i, j, v⟩) ∧
        refs.Pairwise (· ≤ ·) := by
  have hloadable := loadable_of_load hload
  have hclear := hasClearKeys_of_loadable hloadable
  have hcell := Chart.cell_of_chart hc hi hj
  obtain ⟨table, hfill, rfl⟩ := Chart.chart_eq_ok_iff.mp hc
  rw [SpanTable.get_eq_closed hfill hi hj] at hcell
  refine ⟨_, _, hcell, ?_, fun hlong => ?_, Entry.exists_refs_units g i j _⟩
  · rintro t rfl ht
    exact SpanTable.bases_token hclear ht (hwords t (List.mem_of_getElem? ht)).spaceFree
  · have hfree : ∀ {a b}, a < b → b ≤ tokens.length → ∀ e ∈ table.get a b, SpaceFree e.symbol := by
      intro a b hab hb e he
      obtain ⟨p, hp, hlhs⟩ :=
        Grammar.isNonterminal_iff.mp (SpanTable.isNonterminal_of_mem_get hfill hab hb e he)
      exact hlhs ▸ (hloadable p hp).blankless_lhs.spaceFree
    have hbases : SpanTable.bases g tokens table.get i j = _ :=
      SpanTable.bases_eq_ranked hclear hlong fun k hik hkj => ⟨hfree hik (by omega), hfree hkj hj⟩
    exact ⟨_, hbases, SpanTable.pairwise_ranked,
      fun e r => (Chart.ranked_iff (c := ⟨tokens, table⟩) hj).symm⟩

/-- An ambiguous cell. `S` and `T` derive each other, and two productions apply to the same
parts. -/
theorem cell_order_ambiguous :
    let g := Grammar.ofProductions "S"
      [⟨"S", ["S", "S"]⟩, ⟨"S", [quote "x"]⟩, ⟨"T", ["S"]⟩, ⟨"T", [quote "x"]⟩, ⟨"S", ["T"]⟩,
        ⟨"T", ["S", "S"]⟩]
    let tokens := ["x", "x", "x"]
    Grammar.load "S -> S S | \"x\"\nT -> S | \"x\"\nS -> T\nT -> S S" = .ok g ∧
    ∃ c, g.chart tokens = .ok c ∧ ∃ bases units, c.cell 0 3 = .ok (bases ++ units) ∧
      (∀ t, 3 = 0 + 1 → tokens[0]? = some t →
        bases = (g.productions.filter fun p => p.rhs = [quote t]).map fun p => ⟨p.lhs, .leaf⟩) ∧
      (0 + 1 < 3 → ∃ ranked : List (Entry × Rank), bases = ranked.map Prod.fst ∧
        ranked.Pairwise (fun x y => x.2.Before y.2) ∧ ∀ e r, (e, r) ∈ ranked ↔ c.Ranked g 0 3 e r) ∧
      ∃ refs : List Nat, units.map Entry.derivation = refs.map (fun v => .unit ⟨0, 3, v⟩) ∧
        refs.Pairwise (· ≤ ·) := by
  intro g tokens
  have hload : Grammar.load "S -> S S | \"x\"\nT -> S | \"x\"\nS -> T\nT -> S S" = .ok g := by
    decide +kernel
  have hknown : ∀ t ∈ tokens, g.byRhsKey (quote t) ≠ [] := by decide +kernel
  obtain ⟨c, hc⟩ := Chart.exists_chart_iff.mpr hknown
  exact ⟨hload, c, hc, cell_order hload (by decide +kernel) hc (by decide) (by decide)⟩

end Constituency
