import Mathlib.Order.Bounds.Basic
import Constituency.Proofs.Breadth
import Constituency.Proofs.Entries
import Constituency.Proofs.Loading

/-!
Chains of units in a closed cell. A chain leads from an entry down to one of the entries that were
there before the cell was closed. From each of these the closed cell has, for every symbol that
productions with one symbol lead up to, exactly one chain, and no shorter one is possible.
-/
namespace Constituency

namespace Entry

/-- The entry at position `idx` of the cell is for this symbol, and so many units lead from it down
to the entry at position `base`, which is no unit. -/
inductive Chain (i j : Nat) (cell : List Entry) : Symbol → Nat → Nat → Nat → Prop
  | base {e : Entry} {idx : Nat} (he : cell[idx]? = some e) (hd : ∀ r, e.derivation ≠ .unit r) :
      Chain i j cell e.symbol idx idx 0
  | unit {s low : Symbol} {idx v base n : Nat} (he : cell[idx]? = some ⟨s, .unit ⟨i, j, v⟩⟩)
      (h : Chain i j cell low v base n) : Chain i j cell s idx base (n + 1)

variable {g : Grammar} {i j : Nat} {cell : List Entry}

theorem getElem?_closed {idx : Nat} {e : Entry} : (cell ++ units g i j cell)[idx]? = some e ↔
    ∃ item, (items g cell)[idx]? = some item ∧ ofItem i j cell item = e := by
  rw [closed_eq_map, List.getElem?_map, Option.map_eq_some_iff]

theorem ofItem_base {idx : Nat} {item : UnitClosure.Item} (hitem : (items g cell)[idx]? = some item)
    (hv : item.via = none) : item.lane = idx ∧ cell[idx]? = some (ofItem i j cell item) := by
  obtain ⟨hlane, e, he, -⟩ := base_of_via_none hitem hv
  exact ⟨hlane, by simp [ofItem, hv, hlane, he]⟩

theorem ofItem_unit {v : Nat} {item : UnitClosure.Item} (hv : item.via = some v) :
    ofItem i j cell item = ⟨item.symbol, .unit ⟨i, j, v⟩⟩ := by
  simp [ofItem, hv]

theorem mem_nonterminals_of_mem_lanes (hsymbols : ∀ e ∈ cell, e.symbol ∈ g.nonterminals) :
    ∀ b ∈ lanes cell, b.1 ∈ g.nonterminals := by
  rintro ⟨s, lane⟩ hb
  obtain ⟨e, he, rfl⟩ := mem_lanes.mp hb
  exact hsymbols e (List.mem_of_getElem? he)

theorem length_closed_le (hsymbols : ∀ e ∈ cell, e.symbol ∈ g.nonterminals) :
    (cell ++ units g i j cell).length ≤ cell.length * g.nonterminals.length := by
  rw [closed_eq_map, List.length_map]
  exact UnitClosure.length_close_le (nodup_lanes cell) lanes_lt
    (mem_nonterminals_of_mem_lanes hsymbols)

section Bases

variable (hbases : ∀ e ∈ cell, ∀ r, e.derivation ≠ .unit r)

include hbases

/-- The chains of a closed cell are the ways down from the items of its search. -/
theorem chain_closed_iff {s : Symbol} {idx base n : Nat} :
    Chain i j (cell ++ units g i j cell) s idx base n ↔ ∃ item, (items g cell)[idx]? = some item ∧
      item.symbol = s ∧ item.lane = base ∧ UnitClosure.Depth (items g cell) idx n := by
  constructor
  · intro h
    induction h with
    | base he hd =>
      obtain ⟨item, hitem, rfl⟩ := getElem?_closed.mp he
      cases hv : item.via with
      | none =>
        exact ⟨item, hitem, (symbol_ofItem (List.mem_of_getElem? hitem)).symm,
          (ofItem_base (i := i) (j := j) hitem hv).1, .base hitem hv⟩
      | some v => exact absurd (congrArg derivation (ofItem_unit hv)) (hd _)
    | unit he _ ih =>
      obtain ⟨item, hitem, heq⟩ := getElem?_closed.mp he
      obtain ⟨source, hsource, -, hlane, hdepth⟩ := ih
      cases hv : item.via with
      | none =>
        have hbase := (ofItem_base (i := i) (j := j) hitem hv).2
        rw [heq] at hbase
        exact absurd rfl (hbases _ (List.mem_of_getElem? hbase) _)
      | some v =>
        rw [ofItem_unit hv] at heq
        obtain ⟨rfl, rfl⟩ : item.symbol = _ ∧ v = _ := by simpa using heq
        obtain ⟨-, source', hsource', hsame, -⟩ := items_linked hitem hv
        obtain rfl := Option.some.inj (hsource.symm.trans hsource')
        exact ⟨item, hitem, rfl, hsame.symm.trans hlane, .step hitem hv hdepth⟩
  · rintro ⟨item, hitem, rfl, rfl, hdepth⟩
    induction hdepth generalizing item with
    | base hitem' hv =>
      obtain rfl := Option.some.inj (hitem.symm.trans hitem')
      obtain ⟨rfl, hbase⟩ := ofItem_base (i := i) (j := j) hitem hv
      have hchain := Chain.base (i := i) (j := j) (getElem?_closed.mpr ⟨item, hitem, rfl⟩)
        (hbases _ (List.mem_of_getElem? hbase))
      rwa [symbol_ofItem (List.mem_of_getElem? hitem)] at hchain
    | step hitem' hv _ ih =>
      obtain rfl := Option.some.inj (hitem.symm.trans hitem')
      obtain ⟨-, source, hsource, hsame, -⟩ := items_linked hitem hv
      have hchain := ih source hsource
      rw [hsame] at hchain
      exact .unit (getElem?_closed.mpr ⟨item, hitem, ofItem_unit hv⟩) hchain

/-- A chain is found for every way up from a base, and it is not longer. -/
theorem exists_chain_le {base : Nat} {e : Entry} (he : cell[base]? = some e) {n : Nat} {s : Symbol}
    (hpath : g.UnitPath e.symbol n s) :
    ∃ idx d, Chain i j (cell ++ units g i j cell) s idx base d ∧ d ≤ n := by
  obtain ⟨idx, item, d, hitem, hlane, hsymbol, hdepth, hle⟩ :=
    UnitClosure.exists_depth_le (nodup_lanes cell) lanes_lt (mem_lanes.mpr ⟨e, he, rfl⟩) hpath
  exact ⟨idx, d, (chain_closed_iff hbases).mpr ⟨item, hitem, hsymbol, hlane, hdepth⟩, hle⟩

/-- Chains for one symbol and from one base are the same. -/
theorem chain_unique {s : Symbol} {m n base d d' : Nat}
    (hm : Chain i j (cell ++ units g i j cell) s m base d)
    (hn : Chain i j (cell ++ units g i j cell) s n base d') : m = n ∧ d = d' := by
  obtain ⟨x, hx, hsymbol, hlane, hdepth⟩ := (chain_closed_iff hbases).mp hm
  obtain ⟨y, hy, hsymbol', hlane', hdepth'⟩ := (chain_closed_iff hbases).mp hn
  obtain rfl := items_once hx hy (hlane.trans hlane'.symm) (hsymbol.trans hsymbol'.symm)
  exact ⟨rfl, (UnitClosure.breadth_close (nodup_lanes cell) lanes_lt).depth_unique hdepth hdepth'⟩

/-- As many productions lead up from the base of a chain as it has units. -/
theorem unitPath_of_chain
    (hunit : ∀ low high, low ∈ g.nonterminals → g.UnitStep low high → ⟨high, [low]⟩ ∈ g.productions)
    (hsymbols : ∀ e ∈ cell, e.symbol ∈ g.nonterminals) {base : Nat} {e : Entry}
    (he : cell[base]? = some e) {s : Symbol} {idx n : Nat}
    (h : Chain i j (cell ++ units g i j cell) s idx base n) :
    g.UnitPath e.symbol n s := by
  obtain ⟨item, hitem, rfl, rfl, hdepth⟩ := (chain_closed_iff hbases).mp h
  obtain ⟨-, low, hlow, hpath⟩ := UnitClosure.unitPath_of_depth (nodup_lanes cell) lanes_lt hunit
    (mem_nonterminals_of_mem_lanes hsymbols) hdepth hitem
  obtain ⟨e', he', rfl⟩ := mem_lanes.mp hlow
  obtain rfl := Option.some.inj (he.symm.trans he')
  exact hpath

end Bases

end Entry

/-- In a loaded grammar a look-up by a nonterminal finds only productions with this one symbol. -/
theorem unit_of_unitStep {g : Grammar} (hloadable : ∀ p ∈ g.productions, p.Loadable) :
    ∀ low high, low ∈ g.nonterminals → g.UnitStep low high → ⟨high, [low]⟩ ∈ g.productions := by
  rintro low high hlow ⟨p, hp, rfl⟩
  obtain ⟨q, hq, rfl⟩ := Grammar.mem_nonterminals.mp hlow
  have hfree := (hloadable q hq).blankless_lhs.spaceFree
  obtain ⟨hp, hrhs⟩ :=
    (Grammar.mem_byRhsKey_singleton (hasClearKeys_of_loadable hloadable) hfree).mp hp
  exact hrhs ▸ hp

/-- Closing a cell of a loaded grammar leaves its entries where they are. From each of them there is
then exactly one chain up to every symbol that productions with one symbol lead to, none up to any
other symbol, and the chain has as few units as possible. So each entry grows into one for each
nonterminal at most. -/
theorem close_shortest_chains {text : String} {g : Grammar} (hload : Grammar.load text = .ok g)
    (i j : Nat) {cell : List Entry} (hbases : ∀ e ∈ cell, ∀ r, e.derivation ≠ .unit r)
    (hsymbols : ∀ e ∈ cell, g.isNonterminal e.symbol = true) :
    (Cell.close g i j cell).take cell.length = cell ∧
    (∀ (base : Nat) (e : Entry), cell[base]? = some e → ∀ s : Symbol,
      ((∃ n, g.UnitPath e.symbol n s) →
      ∃! idx, ∃ n, Entry.Chain i j (Cell.close g i j cell) s idx base n) ∧
      ((¬ ∃ n, g.UnitPath e.symbol n s) →
        ¬ ∃ idx n, Entry.Chain i j (Cell.close g i j cell) s idx base n) ∧
      ∀ idx n, Entry.Chain i j (Cell.close g i j cell) s idx base n →
        IsLeast {m | g.UnitPath e.symbol m s} n) ∧
    (Cell.close g i j cell).length ≤ cell.length * g.nonterminals.length := by
  have hclosed : Cell.close g i j cell = cell ++ Entry.units g i j cell := rfl
  have hunit := unit_of_unitStep (loadable_of_load hload)
  have hmem : ∀ e ∈ cell, e.symbol ∈ g.nonterminals := fun e he =>
    Grammar.mem_nonterminals.mpr (Grammar.isNonterminal_iff.mp (hsymbols e he))
  rw [hclosed]
  refine ⟨List.take_left, fun base e he s => ⟨?_, ?_, ?_⟩, Entry.length_closed_le hmem⟩
  · rintro ⟨n, hpath⟩
    obtain ⟨idx, d, hchain, -⟩ := Entry.exists_chain_le (i := i) (j := j) hbases he hpath
    refine ⟨idx, ⟨d, hchain⟩, ?_⟩
    rintro m ⟨k, hchain'⟩
    exact (Entry.chain_unique hbases hchain' hchain).1
  · rintro hno ⟨idx, n, hchain⟩
    exact hno ⟨n, Entry.unitPath_of_chain hbases hunit hmem he hchain⟩
  · intro idx n hchain
    refine ⟨Entry.unitPath_of_chain hbases hunit hmem he hchain, fun m hpath => ?_⟩
    obtain ⟨idx', d, hchain', hle⟩ := Entry.exists_chain_le (i := i) (j := j) hbases he hpath
    rw [(Entry.chain_unique hbases hchain hchain').2]
    exact hle

/-- Two ways of the same length up to one symbol, a longer one beside them, and a cycle through all;
two of the entries to close are for the same symbol. -/
theorem close_shortest_chains_diamond :
    let g :=
      Grammar.ofProductions "S" [⟨"S", ["A"]⟩, ⟨"S", ["B"]⟩, ⟨"A", ["X"]⟩, ⟨"A", ["B"]⟩,
        ⟨"B", ["X"]⟩, ⟨"X", ["S"]⟩, ⟨"X", [quote "x"]⟩]
    let cell : List Entry := [⟨"X", .leaf⟩, ⟨"A", .binary ⟨0, 1, 0⟩ ⟨1, 2, 0⟩⟩, ⟨"X", .leaf⟩]
    Grammar.load "S -> A | B\nA -> X | B\nB -> X\nX -> S | \"x\"" = .ok g ∧
      (∀ e ∈ cell, ∀ r, e.derivation ≠ .unit r) ∧ (∀ e ∈ cell, g.isNonterminal e.symbol = true) ∧
      (Cell.close g 0 2 cell).take 3 = cell ∧
      (∃! idx, ∃ n, Entry.Chain 0 2 (Cell.close g 0 2 cell) "S" idx 2 n) ∧
      (∀ idx n, Entry.Chain 0 2 (Cell.close g 0 2 cell) "S" idx 2 n →
        IsLeast {m | g.UnitPath "X" m "S"} n) ∧ (Cell.close g 0 2 cell).length ≤ 3 * 4 := by
  intro g cell
  have hload : Grammar.load "S -> A | B\nA -> X | B\nB -> X\nX -> S | \"x\"" = .ok g := by
    decide +kernel
  have hbases : ∀ e ∈ cell, ∀ r, e.derivation ≠ .unit r := by simp [cell]
  have hsymbols : ∀ e ∈ cell, g.isNonterminal e.symbol = true := by decide +kernel
  have hpath : g.UnitPath "X" 2 "S" :=
    @Grammar.UnitPath.step g "X" 1 "A" "S" (.step .nil (by decide +kernel)) (by decide +kernel)
  obtain ⟨htake, hchains, hlength⟩ := close_shortest_chains hload 0 2 hbases hsymbols
  obtain ⟨hone, -, hleast⟩ := hchains 2 ⟨"X", .leaf⟩ rfl "S"
  exact ⟨hload, hbases, hsymbols, htake, hone ⟨2, hpath⟩, hleast, hlength⟩

end Constituency
