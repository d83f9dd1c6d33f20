import Mathlib.Data.List.Nodup
import Constituency.Chart.Entry
import Constituency.Proofs.Closing

/-!
The entries of a chart cell. Combining adds an entry for every pair of entries and every production
over their symbols. Closing a cell lists its entries as the items of a search in which each entry
that was there before has a lane of its own.
-/
namespace Constituency.Entry

variable {g : Grammar}

/-- Positions ascend along a list. -/
theorem pairwise_zipIdx {α : Type} (xs : List α) : xs.zipIdx.Pairwise fun a b => a.2 < b.2 := by
  have h : (xs.zipIdx.map Prod.snd).Pairwise (· < ·) := by
    rw [List.zipIdx_map_snd]
    exact List.pairwise_lt_range'
  rwa [List.pairwise_map] at h

/-- Every pair of entries meets every production over their symbols. -/
theorem mem_pairs {i k j : Nat} {left right : List Entry} {e : Entry} :
    e ∈ pairs g i k j left right ↔ ∃ m n b c, left[m]? = some b ∧ right[n]? = some c ∧
      ∃ p ∈ g.byRhsKey (rhsKey [b.symbol, c.symbol]), e = ⟨p.lhs, .binary ⟨i, k, m⟩ ⟨k, j, n⟩⟩ := by
  simp only [pairs, List.mem_flatMap, List.mem_map, Prod.exists, List.mem_zipIdx_iff_getElem?]
  constructor
  · rintro ⟨b, m, hb, c, n, hc, p, hp, rfl⟩
    exact ⟨m, n, b, c, hb, hc, p, hp, rfl⟩
  · rintro ⟨m, n, b, c, hb, hc, p, hp, rfl⟩
    exact ⟨b, m, hb, c, n, hc, p, hp, rfl⟩

theorem exists_mem_pairs {i k j : Nat} {left right : List Entry} {s : Symbol} :
    (∃ e ∈ pairs g i k j left right, e.symbol = s) ↔ ∃ b c, (∃ e ∈ left, e.symbol = b) ∧
      (∃ e ∈ right, e.symbol = c) ∧ ∃ p ∈ g.byRhsKey (rhsKey [b, c]), p.lhs = s := by
  constructor
  · rintro ⟨e, he, rfl⟩
    obtain ⟨m, n, b, c, hb, hc, p, hp, rfl⟩ := mem_pairs.mp he
    exact ⟨b.symbol, c.symbol, ⟨b, List.mem_of_getElem? hb, rfl⟩, ⟨c, List.mem_of_getElem? hc, rfl⟩,
      p, hp, rfl⟩
  · rintro ⟨_, _, ⟨b, hb, rfl⟩, ⟨c, hc, rfl⟩, p, hp, rfl⟩
    obtain ⟨m, hm⟩ := List.mem_iff_getElem?.mp hb
    obtain ⟨n, hn⟩ := List.mem_iff_getElem?.mp hc
    exact ⟨_, mem_pairs.mpr ⟨m, n, b, c, hm, hn, p, hp, rfl⟩, rfl⟩

/-- The entries of a cell as bases of a search. -/
def lanes (cell : List Entry) : List (Symbol × Nat) := cell.zipIdx.map fun e => (e.1.symbol, e.2)

theorem mem_lanes {cell : List Entry} {b : Symbol} {lane : Nat} :
    (b, lane) ∈ lanes cell ↔ ∃ e, cell[lane]? = some e ∧ e.symbol = b := by
  simp only [lanes, List.mem_map, Prod.exists, List.mem_zipIdx_iff_getElem?, Prod.mk.injEq]
  constructor
  · rintro ⟨e, _, he, rfl, rfl⟩
    exact ⟨e, he, rfl⟩
  · rintro ⟨e, he, rfl⟩
    exact ⟨e, lane, he, rfl, rfl⟩

/-- Every entry has a lane of its own. -/
theorem nodup_snd_lanes (cell : List Entry) : ((lanes cell).map Prod.snd).Nodup := by
  simp only [lanes, List.map_map, Function.comp_def, List.zipIdx_map_snd]
  exact List.nodup_range'

theorem nodup_lanes (cell : List Entry) : (lanes cell).Nodup := (nodup_snd_lanes cell).of_map _

theorem lanes_lt {cell : List Entry} : ∀ b ∈ lanes cell, b.2 < cell.length := by
  rintro ⟨b, lane⟩ hm
  obtain ⟨e, he, -⟩ := mem_lanes.mp hm
  exact (List.getElem?_eq_some_iff.mp he).1

/-- The items of the search that closes a cell. -/
def items (g : Grammar) (cell : List Entry) : List UnitClosure.Item :=
  UnitClosure.close g cell.length (lanes cell)

/-- The entry that an item stands for: the base of its lane, or an entry over an earlier one. -/
def ofItem (i j : Nat) (cell : List Entry) (item : UnitClosure.Item) : Entry :=
  match item.via with
  | none => (cell[item.lane]?).getD ⟨item.symbol, .leaf⟩
  | some v => ⟨item.symbol, .unit ⟨i, j, v⟩⟩

/-- A closed cell lists the items of its search. -/
theorem closed_eq_map (g : Grammar) (i j : Nat) (cell : List Entry) :
    cell ++ units g i j cell = (items g cell).map (ofItem i j cell) := by
  obtain ⟨grown, hclose, hvia⟩ := UnitClosure.close_eq_append g cell.length (lanes cell)
  have hunits : units g i j cell = (items g cell).filterMap fun item =>
      item.via.map fun idx => ⟨item.symbol, .unit ⟨i, j, idx⟩⟩ := rfl
  rw [hunits, items, hclose, List.filterMap_append, List.map_append]
  have hbases :
    ((lanes cell).map fun b => (⟨b.1, b.2, none⟩ : UnitClosure.Item)).map (ofItem i j cell) =
      cell := by
    apply List.ext_getElem?
    intro m
    simp only [lanes, List.getElem?_map, List.getElem?_zipIdx, Nat.zero_add]
    cases h : cell[m]? with
    | none => rfl
    | some e => simp [ofItem, h]
  have hnone :
    ((lanes cell).map fun b => (⟨b.1, b.2, none⟩ : UnitClosure.Item)).filterMap (fun item =>
      item.via.map fun idx => (⟨item.symbol, .unit ⟨i, j, idx⟩⟩ : Entry)) = [] := by
    simp
  have hgrown : grown.filterMap (fun item => item.via.map fun idx =>
      (⟨item.symbol, .unit ⟨i, j, idx⟩⟩ : Entry)) = grown.map (ofItem i j cell) := by
    rw [← List.filterMap_eq_map']
    apply List.filterMap_congr
    intro item hm
    obtain ⟨v, hv⟩ := Option.isSome_iff_exists.mp (hvia item hm)
    simp [ofItem, hv]
  rw [hbases, hnone, hgrown, List.nil_append]

/-- The bases come first among the items, each in a lane with its own position. -/
theorem items_of_base {cell : List Entry} {lane : Nat} {e : Entry} (he : cell[lane]? = some e) :
    (items g cell)[lane]? = some ⟨e.symbol, lane, none⟩ := by
  obtain ⟨grown, hclose, -⟩ := UnitClosure.close_eq_append g cell.length (lanes cell)
  have hlt : lane < cell.length := (List.getElem?_eq_some_iff.mp he).1
  rw [items, hclose, List.getElem?_append_left (by simpa [lanes] using hlt)]
  simp [lanes, he]

/-- An item without an earlier one below it is a base. -/
theorem base_of_via_none {cell : List Entry} {idx : Nat} {item : UnitClosure.Item}
    (hitem : (items g cell)[idx]? = some item) (hv : item.via = none) :
    item.lane = idx ∧ ∃ e, cell[idx]? = some e ∧ item.symbol = e.symbol := by
  obtain ⟨grown, hclose, hvia⟩ := UnitClosure.close_eq_append g cell.length (lanes cell)
  by_cases hlt : idx < cell.length
  · have he := List.getElem?_eq_getElem hlt
    obtain rfl := Option.some.inj ((items_of_base he).symm.trans hitem)
    exact ⟨rfl, _, he, rfl⟩
  · rw [items, hclose, List.getElem?_append_right (by simpa [lanes] using hlt)] at hitem
    have hsome := hvia item (List.mem_of_getElem? hitem)
    rw [hv] at hsome
    cases hsome

theorem items_grown (g : Grammar) (cell : List Entry) :
    ∃ fresh, UnitClosure.Grown g cell.length (items g cell) fresh :=
  (UnitClosure.close_grown (nodup_lanes cell) lanes_lt).imp fun _ h => h.1

/-- An item over an earlier one is reached from it by one production. -/
theorem items_linked {cell : List Entry} {idx v : Nat} {item : UnitClosure.Item}
    (hitem : (items g cell)[idx]? = some item) (hv : item.via = some v) :
    v < idx ∧ ∃ source, (items g cell)[v]? = some source ∧ source.lane = item.lane ∧
      g.UnitStep source.symbol item.symbol := by
  obtain ⟨_, hgrown⟩ := items_grown g cell
  exact hgrown.linked idx item v hitem hv

/-- A lane has a symbol at one position only. -/
theorem items_once {cell : List Entry} {m n : Nat} {a b : UnitClosure.Item}
    (ha : (items g cell)[m]? = some a) (hb : (items g cell)[n]? = some b) (hl : a.lane = b.lane)
    (hs : a.symbol = b.symbol) : m = n := by
  obtain ⟨_, hgrown⟩ := items_grown g cell
  have honce := List.pairwise_iff_getElem.mp hgrown.once
  obtain ⟨hm, rfl⟩ := List.getElem?_eq_some_iff.mp ha
  obtain ⟨hn, rfl⟩ := List.getElem?_eq_some_iff.mp hb
  obtain h | h | h := Nat.lt_trichotomy m n
  · exact absurd ⟨hl, hs⟩ (honce m n hm hn h)
  · exact h
  · exact absurd ⟨hl.symm, hs.symm⟩ (honce n m hn hm h)

/-- From every base the search reaches what productions with one symbol lead to. -/
theorem exists_item {cell : List Entry} {e : Entry} (he : e ∈ cell) {s : Symbol}
    (hr : g.UnitReaches e.symbol s) : ∃ (idx : Nat) (item : UnitClosure.Item),
      (items g cell)[idx]? = some item ∧ cell[item.lane]? = some e ∧ item.symbol = s := by
  obtain ⟨lane, hlane⟩ := List.mem_iff_getElem?.mp he
  obtain ⟨item, hm, rfl, rfl⟩ := (UnitClosure.mem_close_iff (nodup_lanes cell) lanes_lt).mpr
    ⟨e.symbol, mem_lanes.mpr ⟨e, hlane, rfl⟩, hr⟩
  obtain ⟨idx, hidx⟩ := List.mem_iff_getElem?.mp hm
  exact ⟨idx, item, hidx, hlane, rfl⟩

theorem symbol_ofItem {i j : Nat} {cell : List Entry} {item : UnitClosure.Item}
    (hm : item ∈ items g cell) : (ofItem i j cell item).symbol = item.symbol := by
  cases hv : item.via with
  | some v => simp [ofItem, hv]
  | none =>
    have hbase := UnitClosure.mem_bases_of_via_none hm hv
    obtain ⟨e, he, hs⟩ := mem_lanes.mp hbase
    simp [ofItem, hv, he, hs]

/-- A closed cell has the symbols that its entries reach. -/
theorem exists_mem_closed {i j : Nat} {cell : List Entry} {s : Symbol} :
    (∃ e ∈ cell ++ units g i j cell, e.symbol = s) ↔
      ∃ b, (∃ e ∈ cell, e.symbol = b) ∧ g.UnitReaches b s := by
  rw [closed_eq_map]
  constructor
  · rintro ⟨e, he, rfl⟩
    obtain ⟨item, hm, rfl⟩ := List.mem_map.mp he
    obtain ⟨b, hb, hreach⟩ := (UnitClosure.mem_close_iff (nodup_lanes cell) lanes_lt).mp
      ⟨item, hm, rfl, rfl⟩
    obtain ⟨base, hbase, rfl⟩ := mem_lanes.mp hb
    rw [symbol_ofItem hm]
    exact ⟨base.symbol, ⟨base, List.mem_of_getElem? hbase, rfl⟩, hreach⟩
  · rintro ⟨_, ⟨base, hbase, rfl⟩, hreach⟩
    obtain ⟨lane, hlane⟩ := List.mem_iff_getElem?.mp hbase
    obtain ⟨item, hm, -, rfl⟩ := (UnitClosure.mem_close_iff (nodup_lanes cell) lanes_lt).mpr
      ⟨base.symbol, mem_lanes.mpr ⟨base, hlane, rfl⟩, hreach⟩
    exact ⟨_, List.mem_map_of_mem hm, symbol_ofItem hm⟩

end Constituency.Entry
