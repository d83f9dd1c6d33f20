import Mathlib.Data.List.Nodup
import Constituency.Proofs.Entries
import Constituency.Proofs.Filling
import Constituency.Proofs.Frontier

/-!
Which symbols a filled table has over a span. They are given by three rules, for a token, for one
symbol below and for two symbols below, that read the productions through the same look-ups as the
fill does. Any cells whose operations treat symbols as these rules do are filled with exactly these
symbols; sets of symbols and lists of entries are two such kinds of cells.
-/
namespace Constituency

/-- The elements from one position up to another. -/
def part {α : Type} (w : List α) (i j : Nat) : List α := (w.drop i).take (j - i)

theorem part_append {α : Type} (w : List α) {i k j : Nat} (hik : i ≤ k) (hkj : k ≤ j) :
    part w i k ++ part w k j = part w i j := by
  have hd : w.drop k = (w.drop i).drop (k - i) := by
    rw [List.drop_drop]
    congr 1
    omega
  have hj : j - i = (k - i) + (j - k) := by omega
  rw [part, part, part, hd, hj, List.take_add]

@[simp] theorem length_part {α : Type} (w : List α) (i j : Nat) :
    (part w i j).length = min (j - i) (w.length - i) := by
  rw [part, List.length_take, List.length_drop]

theorem part_singleton {α : Type} {w : List α} {i : Nat} {x : α} (h : w[i]? = some x) :
    part w i (i + 1) = [x] := by
  obtain ⟨hi, rfl⟩ := List.getElem?_eq_some_iff.mp h
  rw [part, List.drop_eq_getElem_cons hi, Nat.add_sub_cancel_left, List.take_succ_cons,
    List.take_zero]

theorem part_all {α : Type} (w : List α) : part w 0 w.length = w := by simp [part]

/-- The symbol spans the tokens from one position up to another, as far as look-ups by key tell. -/
inductive Grammar.Spans (g : Grammar) (tokens : List String) : Symbol → Nat → Nat → Prop
  | token {i : Nat} {t : String} {p : Production} (ht : tokens[i]? = some t)
      (hp : p ∈ g.byRhsKey (quote t)) : Spans g tokens p.lhs i (i + 1)
  | unit {i j : Nat} {b : Symbol} {p : Production} (hp : p ∈ g.byRhsKey b)
      (hb : Spans g tokens b i j) : Spans g tokens p.lhs i j
  | binary {i k j : Nat} {b c : Symbol} {p : Production} (hp : p ∈ g.byRhsKey (rhsKey [b, c]))
      (hb : Spans g tokens b i k) (hc : Spans g tokens c k j) : Spans g tokens p.lhs i j

namespace Grammar

variable {g : Grammar} {tokens : List String}

theorem Spans.lt {s : Symbol} {i j : Nat} (h : g.Spans tokens s i j) :
    i < j ∧ j ≤ tokens.length := by
  induction h with
  | token ht _ =>
    have := (List.getElem?_eq_some_iff.mp ht).1
    omega
  | unit _ _ ih => exact ih
  | binary _ _ _ ihb ihc => omega

theorem Spans.unitReaches {b s : Symbol} {i j : Nat} (hb : g.Spans tokens b i j)
    (h : g.UnitReaches b s) : g.Spans tokens s i j := by
  induction h with
  | refl => exact hb
  | tail _ hstep ih =>
    obtain ⟨p, hp, rfl⟩ := hstep
    exact .unit hp ih

/-- The lexicon knows the tokens that a symbol spans. -/
theorem Spans.known {s : Symbol} {i j : Nat} (h : g.Spans tokens s i j) :
    ∀ k w, i ≤ k → k < j → tokens[k]? = some w → SpanTable.Known g w := by
  induction h with
  | @token i w p hw hp =>
    intro k v hik hkj hv
    obtain rfl : k = i := by omega
    obtain rfl := Option.some.inj (hw.symm.trans hv)
    exact List.ne_nil_of_mem hp
  | unit _ _ ih => exact ih
  | @binary i m j _ _ _ _ _ _ ihb ihc =>
    intro k w hik hkj hw
    by_cases hkm : k < m
    · exact ihb k w hik hkm hw
    · exact ihc k w (by omega) hkj hw

theorem Spans.forall_known {s : Symbol} (h : g.Spans tokens s 0 tokens.length) :
    ∀ w ∈ tokens, SpanTable.Known g w := by
  intro w hw
  obtain ⟨k, hk⟩ := List.mem_iff_getElem?.mp hw
  exact h.known k w (Nat.zero_le k) (List.getElem?_eq_some_iff.mp hk).1 hk

end Grammar

/-- Cells that can be asked for a symbol, and whose operations add the symbols they should. -/
class SymbolCell (κ : Type) [Cell κ] where
  Has : κ → Symbol → Prop
  not_has_default : ∀ s, ¬ Has default s
  has_seed : ∀ ps s, Has (Cell.seed ps) s ↔ ∃ p ∈ ps, p.lhs = s
  has_combine : ∀ g i k j left right cell s, Has (Cell.combine g i k j left right cell) s ↔
    Has cell s ∨ ∃ b c, Has left b ∧ Has right c ∧ ∃ p ∈ g.byRhsKey (rhsKey [b, c]), p.lhs = s
  has_close : ∀ g i j cell s, Has (Cell.close g i j cell) s ↔ ∃ b, Has cell b ∧ g.UnitReaches b s

namespace SpanTable

open SymbolCell

variable {κ : Type} [Cell κ] [SymbolCell κ] {g : Grammar} {tokens : List String}

theorem has_foldl_combine {cells : Nat → Nat → κ} {i j : Nat} (ks : List Nat) (cell : κ)
    (s : Symbol) :
    Has (ks.foldl (fun cell k => Cell.combine g i k j (cells i k) (cells k j) cell) cell) s ↔
      Has cell s ∨ ∃ k ∈ ks, ∃ b c, Has (cells i k) b ∧ Has (cells k j) c ∧
        ∃ p ∈ g.byRhsKey (rhsKey [b, c]), p.lhs = s := by
  induction ks generalizing cell with
  | nil => simp
  | cons k ks ih =>
    rw [List.foldl_cons, ih, has_combine, List.exists_mem_cons_iff, or_assoc]

/-- The symbols of a settled cell: what the bases reach, where a base lies over the token or over
two parts. -/
theorem has_settle {cells : Nat → Nat → κ} {i j : Nat} (cell : κ) (s : Symbol) :
    Has (settle g cells i j cell) s ↔ ∃ base, g.UnitReaches base s ∧ (Has cell base ∨
      ∃ k, i < k ∧ k < j ∧ ∃ b c, Has (cells i k) b ∧ Has (cells k j) c ∧
        ∃ p ∈ g.byRhsKey (rhsKey [b, c]), p.lhs = base) := by
  have hmem : ∀ k, k ∈ List.range' (i + 1) (j - (i + 1)) ↔ i < k ∧ k < j := by
    intro k
    rw [List.mem_range'_1]
    omega
  simp only [settle, has_close, has_foldl_combine, hmem, and_assoc]
  exact exists_congr fun base => and_comm

theorem has_ground {i j : Nat} (hj : j ≤ tokens.length) (s : Symbol) :
    Has (ground g tokens i j : κ) s ↔
      j = i + 1 ∧ ∃ t, tokens[i]? = some t ∧ ∃ p ∈ g.byRhsKey (quote t), p.lhs = s := by
  by_cases h : j = i + 1
  · subst h
    obtain ⟨t, ht⟩ : ∃ t, tokens[i]? = some t := ⟨_, List.getElem?_eq_getElem hj⟩
    simp [ground_token ht, has_seed, ht]
  · simp [ground_other h, not_has_default, h]

/-- A filled table has over a span exactly the symbols that span it. -/
theorem has_get_iff {table : Grid κ} (h : fill κ g tokens = .ok table) {i j : Nat} (hi : i < j)
    (hj : j ≤ tokens.length) (s : Symbol) : Has (table.get i j) s ↔ g.Spans tokens s i j := by
  constructor
  · -- the cells below a cell are over fewer tokens
    induction hw : j - i using Nat.strongRecOn generalizing i j s with
    | ind w ih =>
      rw [get_fill h hi hj, has_settle]
      rintro ⟨base, hreach, hground | ⟨k, hik, hkj, b, c, hb, hc, p, hp, rfl⟩⟩
      · obtain ⟨rfl, t, ht, p, hp, rfl⟩ := (has_ground hj base).mp hground
        exact (Grammar.Spans.token ht hp).unitReaches hreach
      · have hb := ih (k - i) (by omega) hik (by omega) b rfl hb
        have hc := ih (j - k) (by omega) hkj hj c rfl hc
        exact (Grammar.Spans.binary hp hb hc).unitReaches hreach
  · intro hs
    induction hs with
    | @token i t p ht hp =>
      rw [get_fill h hi hj, has_settle]
      exact ⟨p.lhs, .refl, .inl ((has_ground hj _).mpr ⟨rfl, t, ht, p, hp, rfl⟩)⟩
    | @unit i j b p hp hb ih =>
      have hcell := ih hi hj
      rw [get_fill h hi hj, has_settle] at hcell ⊢
      obtain ⟨base, hreach, hbase⟩ := hcell
      exact ⟨base, hreach.tail ⟨p, hp, rfl⟩, hbase⟩
    | @binary i k j b c p hp hb hc ihb ihc =>
      have hik := hb.lt
      have hkj := hc.lt
      rw [get_fill h hi hj, has_settle]
      exact ⟨p.lhs, .refl,
        .inr ⟨k, hik.1, hkj.1, b, c, ihb hik.1 hik.2, ihc hkj.1 hkj.2, p, hp, rfl⟩⟩

end SpanTable

namespace SymbolSet

instance : SymbolCell SymbolSet where
  Has set s := s ∈ set.toList
  not_has_default _ := List.not_mem_nil
  has_seed ps s := by
    change s ∈ (empty.insertAll _).toList ↔ _
    simp [empty]
  has_combine g i k j left right cell s := by
    change s ∈ (cell.insertAll (pairs g left right)).toList ↔ _
    simp only [mem_insertAll, pairs, List.mem_flatMap, List.mem_map]
    grind
  has_close g i j cell s := mem_closeUnits

end SymbolSet

instance : SymbolCell (List Entry) where
  Has cell s := ∃ e ∈ cell, e.symbol = s
  not_has_default s := by
    rintro ⟨e, hm, -⟩
    exact List.not_mem_nil hm
  has_seed ps s := by
    change (∃ e ∈ Entry.leaves ps, e.symbol = s) ↔ _
    simp [Entry.leaves]
  has_combine g i k j left right cell s := by
    change (∃ e ∈ cell ++ Entry.pairs g i k j left right, e.symbol = s) ↔ _
    simp only [List.mem_append, or_and_right, exists_or, Entry.exists_mem_pairs]
  has_close g i j cell s := Entry.exists_mem_closed

end Constituency
