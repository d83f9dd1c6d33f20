import Constituency.Proofs.Agreement
import Constituency.Proofs.Key
import Constituency.Proofs.Rewriting

/-!
Recognition against rewriting. When a grammar is in weak normal form and its keys are clear, a
symbol spans a part of the sentence exactly when it derives the terminals for that part. From the
table to derivations this is one derivation for each rule of spanning. From derivations to the
table, what lies below a string of symbols is laid over the tokens symbol by symbol, along the
productions used.
-/
namespace Constituency

namespace Grammar

variable {g : Grammar} {tokens : List String}

/-- Keys are clear when the grammar is in weak normal form and no symbol holds a space. -/
theorem hasClearKeys_of_isWeakNormal (hweak : g.isWeakNormal = true)
    (hfree : ∀ s ∈ g.symbols, SpaceFree s) : g.HasClearKeys := by
  intro p hp
  refine ⟨rhs_ne_nil_of_allowsShape (List.all_eq_true.mp hweak p hp), fun s hs => hfree s ?_⟩
  exact mem_symbols.mpr (isSymbol_iff.mpr (.inr (occursRight_iff.mpr ⟨p, hp, hs⟩)))

/-- In weak normal form a right-hand side is one symbol or two nonterminals. -/
theorem rhs_of_isWeakNormal (hweak : g.isWeakNormal = true) {p : Production}
    (hp : p ∈ g.productions) :
    (∃ s, p.rhs = [s]) ∨ ∃ b c, p.rhs = [b, c] ∧ g.isNonterminal b = true ∧
      g.isNonterminal c = true :=
  allowsShape_iff.mp (List.all_eq_true.mp hweak p hp)

theorem Spans.isNonterminal {s : Symbol} {i j : Nat} (h : g.Spans tokens s i j) :
    g.isNonterminal s = true := by
  cases h with
  | token _ hp | unit hp _ | binary hp _ _ =>
    exact isNonterminal_of_mem_byRhsKey hp

/-- What spans a part of the sentence derives its terminals. -/
theorem Spans.derives (hg : g.HasClearKeys) (hfree : ∀ s, g.isNonterminal s = true → SpaceFree s)
    (ht : ∀ t ∈ tokens, SpaceFree t) {s : Symbol} {i j : Nat} (h : g.Spans tokens s i j) :
    g.Derives [s] ((part tokens i j).map quote) := by
  induction h with
  | @token i t p htok hp =>
    have hq := (ht t (List.mem_of_getElem? htok)).quote
    obtain ⟨hp, hrhs⟩ := (mem_byRhsKey_singleton hg hq).mp hp
    rw [part_singleton htok, List.map_singleton, derives_singleton_iff]
    exact ⟨p, hp, rfl, hrhs ▸ .refl _⟩
  | @unit i j b p hp hb ih =>
    obtain ⟨hp, hrhs⟩ := (mem_byRhsKey_singleton hg (hfree b hb.isNonterminal)).mp hp
    rw [derives_singleton_iff]
    exact ⟨p, hp, rfl, hrhs ▸ spells_iff_reaches.mpr ih.to_reflTransGen⟩
  | @binary i k j b c p hp hb hc ihb ihc =>
    obtain ⟨hp, hrhs⟩ :=
      (mem_byRhsKey_pair hg (hfree b hb.isNonterminal) (hfree c hc.isNonterminal)).mp hp
    rw [derives_singleton_iff, ← part_append tokens (Nat.le_of_lt hb.lt.1) (Nat.le_of_lt hc.lt.1),
      List.map_append]
    refine ⟨p, hp, rfl, ?_⟩
    rw [hrhs]
    exact Spells.append (spells_iff_reaches.mpr ihb.to_reflTransGen)
      (spells_iff_reaches.mpr ihc.to_reflTransGen)

/-- Symbols laid over the tokens from one position up to another, one after the other: a terminal
over its token, any other symbol over what it spans. -/
inductive Covers (g : Grammar) (tokens : List String) : Nat → Nat → List Symbol → Prop
  | nil (i : Nat) : Covers g tokens i i []
  | token {i j : Nat} {t : String} {ss : List Symbol} (ht : tokens[i]? = some t)
      (hs : Covers g tokens (i + 1) j ss) : Covers g tokens i j (quote t :: ss)
  | span {i k j : Nat} {s : Symbol} {ss : List Symbol} (h : g.Spans tokens s i k)
      (hs : Covers g tokens k j ss) : Covers g tokens i j (s :: ss)

theorem Covers.eq_of_nil {i j : Nat} (h : g.Covers tokens i j []) : i = j := by
  cases h
  rfl

/-- A nonterminal covers what it spans. -/
theorem Covers.cons_nonterminal (hq : ∀ t ∈ tokens, g.isNonterminal (quote t) = false) {i j : Nat}
    {s : Symbol} {ss : List Symbol} (h : g.Covers tokens i j (s :: ss))
    (hs : g.isNonterminal s = true) :
    ∃ k, g.Spans tokens s i k ∧ g.Covers tokens k j ss := by
  cases h with
  | token ht _ =>
    rw [hq _ (List.mem_of_getElem? ht)] at hs
    cases hs
  | span h hss => exact ⟨_, h, hss⟩

/-- When a right-hand side covers some tokens, the left-hand side spans them. -/
theorem Covers.production (hweak : g.isWeakNormal = true)
    (hq : ∀ t ∈ tokens, g.isNonterminal (quote t) = false) {p : Production} (hp : p ∈ g.productions)
    {i j : Nat} (h : g.Covers tokens i j p.rhs) : g.Spans tokens p.lhs i j := by
  obtain ⟨s, hrhs⟩ | ⟨b, c, hrhs, hb, hc⟩ := rhs_of_isWeakNormal hweak hp
  · have hkey : p ∈ g.byRhs [s] := mem_byRhs hp hrhs
    rw [hrhs] at h
    cases h with
    | token ht hss =>
      obtain rfl := hss.eq_of_nil
      exact .token ht hkey
    | span h hss =>
      obtain rfl := hss.eq_of_nil
      exact .unit hkey h
  · have hkey : p ∈ g.byRhs [b, c] := mem_byRhs hp hrhs
    rw [hrhs] at h
    obtain ⟨k, hbk, hrest⟩ := h.cons_nonterminal hq hb
    obtain ⟨l, hcl, hnil⟩ := hrest.cons_nonterminal hq hc
    obtain rfl := hnil.eq_of_nil
    exact .binary hkey hbk hcl

/-- What lies below a string covers its place in the sentence. -/
theorem Spells.covers (hweak : g.isWeakNormal = true)
    (hq : ∀ t ∈ tokens, g.isNonterminal (quote t) = false) {ss w : List Symbol} (h : g.Spells ss w)
    {front back : List Symbol} (hw : tokens.map quote = front ++ w ++ back) :
    g.Covers tokens front.length (front.length + w.length) ss := by
  induction h generalizing front back with
  | nil => exact .nil _
  | @keep s ss w _ ih =>
    have hs : (tokens.map quote)[front.length]? = some s := by simp [hw]
    rw [List.getElem?_map, Option.map_eq_some_iff] at hs
    obtain ⟨t, ht, rfl⟩ := hs
    have hnext : tokens.map quote = front ++ [quote t] ++ w ++ back := by simp [hw]
    have hrest := ih hnext
    rw [List.length_append, List.length_singleton] at hrest
    rw [List.length_cons, Nat.add_comm w.length 1, ← Nat.add_assoc]
    exact .token ht hrest
  | @expand p ss v w hp _ _ ihv ihw =>
    have hleft : tokens.map quote = front ++ v ++ (w ++ back) := by simp [hw]
    have hright : tokens.map quote = front ++ v ++ w ++ back := by simp [hw]
    have hv := ihv hleft
    have hrest := ihw hright
    rw [List.length_append] at hrest
    rw [List.length_append, ← Nat.add_assoc]
    exact .span (hv.production hweak hq hp) hrest

/-- Over a part of the sentence, spanning and deriving its terminals are the same. -/
theorem spans_iff_derives (hweak : g.isWeakNormal = true)
    (hfree : ∀ s ∈ g.symbols, SpaceFree s) (ht : ∀ t ∈ tokens, SpaceFree t)
    (hq : ∀ t ∈ tokens, g.isNonterminal (quote t) = false) {s : Symbol} {i j : Nat} (hi : i < j)
    (hj : j ≤ tokens.length) :
    g.Spans tokens s i j ↔ g.Derives [s] ((part tokens i j).map quote) := by
  constructor
  · intro h
    have hleft : ∀ s, g.isNonterminal s = true → SpaceFree s := by
      intro s hs
      exact hfree s (mem_symbols.mpr (by simp [isSymbol, hs]))
    exact h.derives (hasClearKeys_of_isWeakNormal hweak hfree) hleft ht
  · intro h
    obtain ⟨p, hp, rfl, hspells⟩ := derives_singleton_iff.mp h
    have hw : tokens.map quote =
        (part tokens 0 i).map quote ++ (part tokens i j).map quote ++
          (part tokens j tokens.length).map quote := by
      rw [← List.map_append, ← List.map_append, part_append _ (Nat.zero_le i) (Nat.le_of_lt hi),
        part_append _ (Nat.zero_le j) hj, part_all]
    have hcovers := hspells.covers hweak hq hw
    have hfront : ((part tokens 0 i).map quote).length = i := by
      rw [List.length_map, length_part]
      omega
    have hback : i + ((part tokens i j).map quote).length = j := by
      rw [List.length_map, length_part]
      omega
    rw [hfront, hback] at hcovers
    exact hcovers.production hweak hq hp

end Grammar

open Grammar in
/-- Every cell of a recognition table is exact: it holds the symbols that derive the terminals for
its part of the sentence. So a sentence is accepted when it has a token and the start symbol derives
it. -/
theorem recognize_exact {g : Grammar} {tokens : List String} (hweak : g.isWeakNormal = true)
    (hfree : ∀ s ∈ g.symbols, SpaceFree s) (ht : ∀ t ∈ tokens, SpaceFree t)
    (hq : ∀ t ∈ tokens, g.isNonterminal (quote t) = false)
    (hlex : ∀ t ∈ tokens, ∃ p ∈ g.productions, p.rhs = [quote t]) :
    (∃ table, SpanTable.fill SymbolSet g tokens = .ok table ∧
      ∀ i j, i < j → j ≤ tokens.length → ∀ s,
        s ∈ (table.get i j).toList ↔ g.Derives [s] ((part tokens i j).map quote)) ∧
    (g.recognize tokens = .accepted ↔ tokens ≠ [] ∧ g.Derives [g.start] (tokens.map quote)) := by
  have hknown : ∀ t ∈ tokens, SpanTable.Known g t := by
    intro t hm
    obtain ⟨p, hp, hrhs⟩ := hlex t hm
    have hkey : p ∈ g.byRhs [quote t] := mem_byRhs hp hrhs
    exact List.ne_nil_of_mem hkey
  obtain ⟨table, htable⟩ : ∃ table, SpanTable.fill SymbolSet g tokens = .ok table :=
    ⟨_, SpanTable.fill_eq_ok_iff.mpr ⟨hknown, rfl⟩⟩
  have hcell : ∀ i j, i < j → j ≤ tokens.length → ∀ s,
      s ∈ (table.get i j).toList ↔ g.Derives [s] ((part tokens i j).map quote) := by
    intro i j hi hj s
    rw [mem_table_iff htable hi hj, spans_iff_derives hweak hfree ht hq hi hj]
  refine ⟨⟨table, htable, hcell⟩, ?_⟩
  have hall : tokens ≠ [] ∧ g.start ∈ (table.get 0 tokens.length).toList ↔
      tokens ≠ [] ∧ g.Derives [g.start] (tokens.map quote) := by
    refine and_congr_right fun hn => ?_
    rw [hcell 0 tokens.length (List.length_pos_iff.mpr hn) (Nat.le_refl _), part_all]
  rw [recognize_of_table htable, ← hall]
  constructor
  · intro h
    by_contra hn
    rw [if_neg hn] at h
    cases h
  · intro h
    exact if_pos h

/-- A cyclic and ambiguous grammar, whose every cell over this sentence is exact. -/
theorem recognize_exact_cyclic :
    let g := Grammar.ofProductions "S"
      [⟨"S", ["S", "S"]⟩, ⟨"S", ["A"]⟩, ⟨"A", ["S"]⟩, ⟨"S", [quote "a"]⟩, ⟨"A", [quote "b"]⟩]
    (∃ table, SpanTable.fill SymbolSet g ["a", "b", "a"] = .ok table ∧
      ∀ i j, i < j → j ≤ 3 → ∀ s,
        s ∈ (table.get i j).toList ↔ g.Derives [s] ((part ["a", "b", "a"] i j).map quote)) ∧
    (g.recognize ["a", "b", "a"] = .accepted ↔
      ["a", "b", "a"] ≠ [] ∧ g.Derives [g.start] (["a", "b", "a"].map quote)) :=
  recognize_exact (by decide +kernel) (by decide +kernel) (by decide +kernel) (by decide +kernel)
    (by decide +kernel)

end Constituency
