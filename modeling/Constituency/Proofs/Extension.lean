import Mathlib.Data.List.Flatten
import Constituency.Proofs.Agreement
import Constituency.Proofs.Multiplicity

/-!
What more productions add. A grammar that has the productions of another finds as much under every
key, so every symbol that spans a part of the sentence still does, and no cell of its chart has a
symbol less often. Its entries and their order may be others, and so may the chains of productions
with one symbol that they stand for; only the number of entries for a symbol is compared.
-/
namespace Constituency

open Entry Grammar

/-- More elements, with more below each of them, have more below them in all. -/
theorem subperm_flatMap {α β : Type} {xs ys : List α} {f f' : α → List β} (h : xs.Subperm ys)
    (hf : ∀ x ∈ xs, (f x).Subperm (f' x)) : (xs.flatMap f).Subperm (ys.flatMap f') := by
  have hsame : ∀ zs : List α, zs ⊆ xs → (zs.flatMap f).Subperm (zs.flatMap f') := by
    intro zs hzs
    induction zs with
    | nil => exact .refl _
    | cons z zs ih =>
      rw [List.cons_subset] at hzs
      rw [List.flatMap_cons, List.flatMap_cons]
      exact (hf z hzs.1).append (ih hzs.2)
  obtain ⟨zs, hperm, hsub⟩ := h
  have hmore : (xs.flatMap f').Subperm (ys.flatMap f') :=
    (hperm.symm.flatMap_right f').subperm.trans (hsub.flatMap f').subperm
  exact (hsame xs (List.Subset.refl xs)).trans hmore

section More

variable {g h : Grammar} (hsub : g.productions ⊆ h.productions)

include hsub

namespace Grammar

theorem mem_byRhsKey_of_subset {key : String} {p : Production} (hp : p ∈ g.byRhsKey key) :
    p ∈ h.byRhsKey key := by
  rw [mem_byRhsKey] at hp ⊢
  exact ⟨hsub hp.1, hp.2⟩

/-- Under every key there are as many left-hand sides as before, and maybe more. -/
theorem lhs_byRhsKey_subperm (key : String) :
    ((g.byRhsKey key).map Production.lhs).Subperm ((h.byRhsKey key).map Production.lhs) := by
  have hnodup : (g.byRhsKey key).Nodup := by
    rw [byRhsKey_eq_filter]
    exact g.nodup.filter _
  have hfound := List.subperm_of_subset hnodup fun p hp => mem_byRhsKey_of_subset hsub hp
  obtain ⟨ps, hperm, hps⟩ := hfound
  exact ⟨_, hperm.map _, hps.map _⟩

theorem UnitStep.of_subset {low high : Symbol} (hs : g.UnitStep low high) :
    h.UnitStep low high := by
  obtain ⟨p, hp, rfl⟩ := hs
  exact ⟨p, mem_byRhsKey_of_subset hsub hp, rfl⟩

theorem UnitReaches.of_subset {low high : Symbol} (hr : g.UnitReaches low high) :
    h.UnitReaches low high :=
  Relation.ReflTransGen.mono (fun _ _ hs => UnitStep.of_subset hsub hs) _ _ hr

theorem Spans.of_subset {tokens : List String} {s : Symbol} {i j : Nat}
    (hs : g.Spans tokens s i j) :
    h.Spans tokens s i j := by
  induction hs with
  | token ht hp => exact .token ht (mem_byRhsKey_of_subset hsub hp)
  | unit hp _ ih => exact .unit (mem_byRhsKey_of_subset hsub hp) ih
  | binary hp _ _ ihb ihc => exact .binary (mem_byRhsKey_of_subset hsub hp) ihb ihc

theorem known_of_subset {t : String} (ht : SpanTable.Known g t) : SpanTable.Known h t := by
  obtain ⟨p, hp⟩ := List.exists_mem_of_ne_nil _ ht
  exact List.ne_nil_of_mem (mem_byRhsKey_of_subset hsub hp)

end Grammar

theorem Entry.symbols_pairs_subperm (i k j : Nat) {left right left' right' : List Entry}
    (hl : (symbols left).Subperm (symbols left')) (hr : (symbols right).Subperm (symbols right')) :
    (symbols (pairs g i k j left right)).Subperm (symbols (pairs h i k j left' right')) := by
  rw [symbols_pairs, symbols_pairs]
  exact subperm_flatMap hl fun b _ => subperm_flatMap hr fun c _ => lhs_byRhsKey_subperm hsub _

/-- Closing keeps a cell below another: what an entry reaches it still reaches. -/
theorem Entry.symbols_closed_subperm (i j : Nat) {cell cell' : List Entry}
    (hc : (symbols cell).Subperm (symbols cell')) :
    (symbols (cell ++ units g i j cell)).Subperm (symbols (cell' ++ units h i j cell')) := by
  classical
  rw [List.subperm_ext_iff]
  intro s _
  rw [count_symbols_closed, count_symbols_closed]
  calc (symbols cell).countP (fun b => decide (g.UnitReaches b s))
      ≤ (symbols cell).countP fun b => decide (h.UnitReaches b s) := by
        refine List.countP_mono_left fun b _ hb => ?_
        rw [decide_eq_true_eq] at hb ⊢
        exact hb.of_subset hsub
    _ ≤ (symbols cell').countP fun b => decide (h.UnitReaches b s) := hc.countP_le _

namespace SpanTable

variable {tokens : List String}

/-- No cell has a symbol less often. -/
theorem symbols_get_subperm {table table' : Grid (List Entry)}
    (hg : fill (List Entry) g tokens = .ok table) (hh : fill (List Entry) h tokens = .ok table')
    {i j : Nat} (hi : i < j) (hj : j ≤ tokens.length) :
    (symbols (table.get i j)).Subperm (symbols (table'.get i j)) := by
  -- the cells below a cell are over fewer tokens
  induction hw : j - i using Nat.strongRecOn generalizing i j with
  | ind w ih =>
    rw [get_eq_closed hg hi hj, get_eq_closed hh hi hj]
    apply symbols_closed_subperm hsub
    rw [symbols_bases, symbols_bases]
    refine List.Subperm.append ?_ ?_
    · rw [symbols_ground, symbols_ground]
      split
      · exact lhs_byRhsKey_subperm hsub _
      · exact .refl _
    · refine subperm_flatMap (.refl _) fun k hk => ?_
      rw [List.mem_range'_1] at hk
      exact symbols_pairs_subperm hsub i k j (ih (k - i) (by omega) (by omega) (by omega) rfl)
        (ih (j - k) (by omega) (by omega) hj rfl)

end SpanTable

theorem Chart.symbols_whole_subperm {tokens : List String} {c d : Chart}
    (hc : g.chart tokens = .ok c) (hd : h.chart tokens = .ok d) :
    (symbols c.whole).Subperm (symbols d.whole) := by
  obtain ⟨table, hg, rfl⟩ := chart_eq_ok_iff.mp hc
  obtain ⟨table', hh, rfl⟩ := chart_eq_ok_iff.mp hd
  cases tokens with
  | nil => exact .refl _
  | cons t rest => exact SpanTable.symbols_get_subperm hsub hg hh (Nat.succ_pos _) (Nat.le_refl _)

/-- Where there is a chart there is one still, and no symbol has fewer trees in it. -/
theorem Chart.exists_of_subset {tokens : List String} {c : Chart} (hc : g.chart tokens = .ok c) :
    ∃ d, h.chart tokens = .ok d ∧ ∀ s, (c.trees s).length ≤ (d.trees s).length := by
  have hknown := exists_chart_iff.mp ⟨c, hc⟩
  obtain ⟨d, hd⟩ := exists_chart_iff.mpr fun t ht => known_of_subset hsub (hknown t ht)
  refine ⟨d, hd, fun s => ?_⟩
  rw [length_trees hc, length_trees hd]
  exact (symbols_whole_subperm hsub hc hd).count_le s

end More

/-- More productions lose no parse: what was accepted still is, and has at least as many trees. -/
theorem recognize_parse_monotone {g h : Grammar} (hstart : g.start = h.start)
    (hsub : g.productions ⊆ h.productions) (tokens : List String) :
    (g.recognize tokens = .accepted → h.recognize tokens = .accepted) ∧
    (g.parse tokens).trees.length ≤ (h.parse tokens).trees.length := by
  constructor
  · rw [recognize_eq_accepted_iff, recognize_eq_accepted_iff, hstart]
    exact Grammar.Spans.of_subset hsub
  · cases hc : g.chart tokens with
    | error e => simp [Grammar.parse, hc]
    | ok c =>
      obtain ⟨d, hd, htrees⟩ := Chart.exists_of_subset hsub hc
      rw [outcome_of_chart hc, outcome_of_chart hd, hstart]
      exact htrees h.start

/-- A grammar found inside a larger one whose new production comes first and gives a second
parse. -/
theorem recognize_parse_monotone_prepended :
    let g := Grammar.ofProductions "S" [⟨"S", ["S", "S"]⟩, ⟨"S", [quote "a"]⟩]
    let h := Grammar.ofProductions "S"
      [⟨"A", ["S"]⟩, ⟨"S", ["S", "A"]⟩, ⟨"S", ["A"]⟩, ⟨"S", ["S", "S"]⟩, ⟨"S", [quote "a"]⟩]
    (g.recognize ["a", "a", "a"] = .accepted → h.recognize ["a", "a", "a"] = .accepted) ∧
    (g.parse ["a", "a", "a"]).trees.length ≤ (h.parse ["a", "a", "a"]).trees.length := by
  intro g h
  have hstart : g.start = h.start := by rfl
  have hsub : g.productions ⊆ h.productions := by decide +kernel
  exact @recognize_parse_monotone g h hstart hsub ["a", "a", "a"]

end Constituency
