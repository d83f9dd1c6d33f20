import Constituency.Proofs.Expansion
import Constituency.Proofs.Key

/-!
The productions of a converted grammar. A right-hand side is determined by its left-hand side and by
what it expands to. A symbol that stands alone on the right belongs to the source, so introduced
symbols stand in pairs only. When the source has no blanks in its symbols, the converted grammar has
none either, and its keys are clear.
-/
namespace Constituency.Conversion

open Grammar

variable {g h : Grammar} {n : Naming}

theorem Splits.length_eq {parts rhs : List Symbol} (hs : Splits n parts rhs)
    (hlength : 2 ≤ parts.length) :
    rhs.length = 2 := by
  cases hs with
  | short h => omega
  | long _ _ => rfl

/-- Parts give one right-hand side only. -/
theorem Splits.unique (hn : Sound g n) {parts rhs rhs' : List Symbol} (hs : Splits n parts rhs)
    (hs' : Splits n parts rhs') : rhs = rhs' := by
  cases hs with
  | short hlength => exact (hs'.eq_of_length_le hlength).symm
  | @long front compound last hlength hc =>
    generalize hparts : front ++ [last] = parts at hs'
    cases hs' with
    | short hlength' =>
      subst hparts
      rw [List.length_append, List.length_singleton] at hlength'
      omega
    | long _ hc' =>
      obtain ⟨rfl, hlast⟩ := List.append_inj' hparts rfl
      rw [hn.consistent.injective hc hc', List.singleton_inj.mp hlast]

/-- A right-hand side is put behind one sequence of symbols only. -/
theorem stands_unique (hn : Sound g n) {rhs parts parts' : List Symbol}
    (hs : List.Forall₂ (Stands g n) rhs parts) (hs' : List.Forall₂ (Stands g n) rhs parts') :
    parts = parts' := by
  induction hs generalizing parts' with
  | nil =>
    cases hs'
    rfl
  | @cons s u rest parts hu _ ih =>
    cases hs' with
    | @cons _ v _ rest' hv hrest =>
      have huv : u = v := by
        obtain ⟨ht, hl⟩ | ⟨hnon, rfl⟩ := hu
        · obtain ⟨-, hl'⟩ | ⟨hnon, -⟩ := hv
          · exact hn.consistent.injective hl hl'
          · simp [isTerminal, hnon] at ht
        · obtain ⟨ht, -⟩ | ⟨-, rfl⟩ := hv
          · simp [isTerminal, hnon] at ht
          · rfl
      rw [huv, ih hrest]

theorem Main.rhs_unique (hn : Sound g n) {p q r : Production} (hq : Main g n p q)
    (hr : Main g n p r) :
    q.rhs = r.rhs := by
  obtain ⟨-, ⟨hsize, hrhs⟩ | ⟨hsize, parts, hstands, hsplits⟩⟩ := hq
  · obtain ⟨-, ⟨-, hrhs'⟩ | ⟨hsize', -⟩⟩ := hr
    · rw [hrhs, hrhs']
    · omega
  · obtain ⟨-, ⟨hsize', -⟩ | ⟨-, parts', hstands', hsplits'⟩⟩ := hr
    · omega
    · obtain rfl := stands_unique hn hstands hstands'
      exact hsplits.unique hn hsplits'

theorem Main.length_parts {p : Production} {parts : List Symbol} (hsize : 2 ≤ p.size)
    (hs : List.Forall₂ (Stands g n) p.rhs parts) : 2 ≤ parts.length := by
  rw [← hs.length_eq]
  exact hsize

theorem Sound.expand_ne_nil (hn : Sound g n) (s : Symbol) : expand n s ≠ [] := by
  have hplain : ∀ s, plain n s ≠ [] := by
    intro s hnil
    cases hl : n.lookup s with
    | none => simp [plain, hl] at hnil
    | some parts =>
      rw [plain_of_lookup hl] at hnil
      have hf := hn.formed s parts hl
      rw [hnil] at hf
      cases hf with
      | several hlength _ => simp at hlength
  obtain ⟨u, hu⟩ := List.exists_mem_of_ne_nil _ (hplain s)
  obtain ⟨v, hv⟩ := List.exists_mem_of_ne_nil _ (hplain u)
  exact List.ne_nil_of_mem (List.mem_flatMap.mpr ⟨u, hu, hv⟩)

section Explains

variable (he : Explains g n h)

include he

/-- A production for a symbol of the source expands to one of the source. -/
theorem Explains.mem_source {q : Production} (hq : q ∈ h.productions)
    (hs : g.isSymbol q.lhs = true) :
    ⟨q.lhs, q.rhs.flatMap (expand n)⟩ ∈ g.productions := by
  obtain ⟨p, hp, hm⟩ := he.source q hq hs
  rw [hm.flatMap_expand he.sound hp, hm.1]
  exact hp

/-- A production for an introduced symbol expands to nothing new. -/
theorem Explains.flatMap_introduced {q : Production} (hq : q ∈ h.productions)
    (hs : g.isSymbol q.lhs = false) : q.rhs.flatMap (expand n) = expand n q.lhs := by
  obtain ⟨parts, hl, hsplits⟩ := he.introduced q hq hs
  exact he.sound.flatMap_of_splits hl hsplits

/-- The right-hand side is determined by the left-hand side and by what it expands to. -/
theorem Explains.rhs_unique {q r : Production} (hq : q ∈ h.productions) (hr : r ∈ h.productions)
    (hlhs : q.lhs = r.lhs) (hexpand : q.rhs.flatMap (expand n) = r.rhs.flatMap (expand n)) :
    q.rhs = r.rhs := by
  cases hs : g.isSymbol q.lhs with
  | true =>
    obtain ⟨p, hp, hm⟩ := he.source q hq hs
    obtain ⟨p', hp', hm'⟩ := he.source r hr (hlhs ▸ hs)
    obtain rfl : p = p' := by
      have hl : p.lhs = p'.lhs := by rw [← hm.1, ← hm'.1, hlhs]
      have hrhs : p.rhs = p'.rhs := by
        rw [← hm.flatMap_expand he.sound hp, ← hm'.flatMap_expand he.sound hp', hexpand]
      exact Production.eq_of_sides hl hrhs
    exact hm.rhs_unique he.sound hm'
  | false =>
    obtain ⟨parts, hl, hsplits⟩ := he.introduced q hq hs
    obtain ⟨parts', hl', hsplits'⟩ := he.introduced r hr (hlhs ▸ hs)
    obtain rfl : parts = parts' := Option.some.inj (hl.symm.trans (hlhs ▸ hl'))
    exact hsplits.unique he.sound hsplits'

/-- A symbol alone on the right belongs to the source, and below an introduced symbol it is a
terminal. -/
theorem Explains.sole {q : Production} (hq : q ∈ h.productions) {s : Symbol} (hrhs : q.rhs = [s]) :
    g.isSymbol s = true ∧ (g.isSymbol q.lhs = true ∨ g.isTerminal s = true) := by
  cases hs : g.isSymbol q.lhs with
  | true =>
    obtain ⟨p, hp, -, ⟨-, hsame⟩ | ⟨hsize, parts, hstands, hsplits⟩⟩ := he.source q hq hs
    · refine ⟨isSymbol_of_occursRight (occursRight_of_mem hp ?_), .inl rfl⟩
      rw [← hsame, hrhs]
      exact List.mem_singleton_self s
    · have hlength := hsplits.length_eq (Main.length_parts hsize hstands)
      rw [hrhs] at hlength
      cases hlength
  | false =>
    obtain ⟨parts, hl, hsplits⟩ := he.introduced q hq hs
    cases he.sound.formed q.lhs parts hl with
    | terminal ht =>
      have hsame := hsplits.eq_of_length_le (by simp)
      rw [hrhs, List.singleton_inj] at hsame
      exact ⟨hsame ▸ isSymbol_of_isTerminal ht, .inr (hsame ▸ ht)⟩
    | several hlength _ =>
      have hlength' := hsplits.length_eq hlength
      rw [hrhs] at hlength'
      cases hlength'

/-- Every terminal of the source stands alone on the right, and so does every symbol that does in
the source. No other symbol does. -/
theorem Explains.sole_iff {s : Symbol} : (∃ q ∈ h.productions, q.rhs = [s]) ↔
    g.isTerminal s = true ∨ ∃ p ∈ g.productions, p.rhs = [s] := by
  have hcopied : ∀ p ∈ g.productions, p.rhs = [s] → ∃ q ∈ h.productions, q.rhs = [s] := by
    intro p hp hrhs
    obtain ⟨q, hq, -, ⟨-, hsame⟩ | ⟨hsize, -⟩⟩ := he.main p hp
    · exact ⟨q, hq, hsame.trans hrhs⟩
    · rw [Production.size, hrhs, List.length_singleton] at hsize
      omega
  constructor
  · rintro ⟨q, hq, hrhs⟩
    obtain ⟨hs, -⟩ := he.sole hq hrhs
    cases hlhs : g.isSymbol q.lhs with
    | true =>
      have hp := he.mem_source hq hlhs
      rw [hrhs, List.flatMap_singleton, he.sound.expand_of_isSymbol hs] at hp
      exact .inr ⟨_, hp, rfl⟩
    | false => exact .inl ((he.sole hq hrhs).2.resolve_left (by simp [hlhs]))
  · rintro (ht | ⟨p, hp, hrhs⟩)
    · obtain ⟨p, hp, hmem⟩ := occursRight_iff.mp (isTerminal_iff.mp ht).2
      obtain ⟨q, hq, -, ⟨hsize, -⟩ | ⟨-, parts, hstands, -⟩⟩ := he.main p hp
      · have hpos := List.length_pos_of_mem hmem
        obtain ⟨t, hrhs⟩ :=
          List.length_eq_one_iff.mp (Nat.le_antisymm (Nat.le_of_lt_succ hsize) hpos)
        obtain rfl : s = t := by simpa [hrhs] using hmem
        exact hcopied p hp hrhs
      · obtain ⟨u, -, ⟨-, hl⟩ | ⟨hnon, -⟩⟩ := exists_mem_right hstands hmem
        · obtain ⟨rhs, hsplits, hq⟩ := he.definition u [s] hl
          exact ⟨_, hq, hsplits.eq_of_length_le (by simp)⟩
        · simp [isTerminal, hnon] at ht
    · exact hcopied p hp hrhs

theorem Explains.isNonterminal_of_lookup {s : Symbol} {parts : List Symbol}
    (hl : n.lookup s = some parts) :
    h.isNonterminal s = true := by
  obtain ⟨rhs, -, hp⟩ := he.definition s parts hl
  exact isNonterminal_lhs hp

theorem Explains.isNonterminal_of_source {s : Symbol} (hs : g.isNonterminal s = true) :
    h.isNonterminal s = true := by
  obtain ⟨p, hp, rfl⟩ := isNonterminal_iff.mp hs
  obtain ⟨q, hq, hm⟩ := he.main p hp
  exact hm.1 ▸ isNonterminal_lhs hq

theorem Explains.isNonterminal_of_isSymbol {s : Symbol} (hnon : h.isNonterminal s = true)
    (hs : g.isSymbol s = true) : g.isNonterminal s = true := by
  obtain ⟨q, hq, rfl⟩ := isNonterminal_iff.mp hnon
  obtain ⟨p, hp, hm⟩ := he.source q hq hs
  exact isNonterminal_iff.mpr ⟨p, hp, hm.1.symm⟩

/-- When a nonterminal stands alone on the right, both sides belong to the source. -/
theorem Explains.isSymbol_of_unit {q : Production} (hq : q ∈ h.productions) {s : Symbol}
    (hrhs : q.rhs = [s]) (hnon : h.isNonterminal s = true) :
    g.isSymbol s = true ∧ g.isSymbol q.lhs = true := by
  obtain ⟨hs, hlhs | ht⟩ := he.sole hq hrhs
  · exact ⟨hs, hlhs⟩
  · have hsource := he.isNonterminal_of_isSymbol hnon hs
    simp [isTerminal, hsource] at ht

/-- What stands on the right occurs there in the source, or is known. -/
theorem Explains.right {q : Production} (hq : q ∈ h.productions) {s : Symbol} (hs : s ∈ q.rhs) :
    g.occursRight s = true ∨ ∃ parts, n.lookup s = some parts := by
  have hupright :
      ∀ u, Upright g n u → g.occursRight u = true ∨ ∃ parts, n.lookup u = some parts := by
    intro u hu
    obtain ⟨hu, -⟩ | ⟨t, -, hl⟩ := hu
    · exact .inl hu
    · exact .inr ⟨[t], hl⟩
  have hsplit : ∀ parts, Splits n parts q.rhs →
      (∀ u ∈ parts, g.occursRight u = true ∨ ∃ parts, n.lookup u = some parts) →
      g.occursRight s = true ∨ ∃ parts, n.lookup s = some parts := by
    intro parts hsplits hall
    generalize hrhs : q.rhs = rhs at hsplits hs
    cases hsplits with
    | short _ => exact hall s hs
    | @long front compound last _ hc =>
      obtain rfl | hs := List.mem_cons.mp hs
      · exact .inr ⟨front, hc⟩
      · obtain rfl := List.mem_singleton.mp hs
        exact hall s (by simp)
  cases hsym : g.isSymbol q.lhs with
  | true =>
    obtain ⟨p, hp, -, ⟨-, hsame⟩ | ⟨-, parts, hstands, hsplits⟩⟩ := he.source q hq hsym
    · rw [hsame] at hs
      exact .inl (occursRight_of_mem hp hs)
    · refine hsplit parts hsplits fun u hu => hupright u ?_
      obtain ⟨t, ht, htu⟩ := exists_mem_left hstands hu
      exact htu.upright (occursRight_of_mem hp ht)
  | false =>
    obtain ⟨parts, hl, hsplits⟩ := he.introduced q hq hsym
    refine hsplit parts hsplits fun u hu => ?_
    cases he.sound.formed q.lhs parts hl with
    | @terminal t ht =>
      obtain rfl := List.mem_singleton.mp hu
      exact .inl (isTerminal_iff.mp ht).2
    | several _ hall => exact hupright u (hall u hu)

theorem Explains.isNonterminal_of_upright {s : Symbol} (hs : Upright g n s) :
    h.isNonterminal s = true := by
  obtain ⟨-, hnon⟩ | ⟨t, -, hl⟩ := hs
  · exact he.isNonterminal_of_source hnon
  · exact he.isNonterminal_of_lookup hl

/-- Symbols that stand beside others are divided into pairs of nonterminals. -/
theorem Explains.allowsShape_of_splits {q : Production} {parts : List Symbol}
    (hlength : 2 ≤ parts.length) (hparts : ∀ s ∈ parts, Upright g n s) (hs : Splits n parts q.rhs) :
    h.allowsShape q = true := by
  have hnon : ∀ s ∈ parts, h.isNonterminal s = true :=
    fun s hm => he.isNonterminal_of_upright (hparts s hm)
  refine allowsShape_iff.mpr (.inr ?_)
  generalize q.rhs = rhs at hs
  cases hs with
  | short htwo =>
    obtain ⟨b, c, rfl⟩ := List.length_eq_two.mp (Nat.le_antisymm htwo hlength)
    exact ⟨b, c, rfl, hnon b (by simp), hnon c (by simp)⟩
  | @long front compound last _ hc =>
    exact ⟨compound, last, rfl, he.isNonterminal_of_lookup hc, hnon last (by simp)⟩

/-- A production of the converted grammar has an allowed shape, or it is an empty production of the
source. -/
theorem Explains.allowsShape_or_empty {q : Production} (hq : q ∈ h.productions) :
    h.allowsShape q = true ∨ (q.rhs = [] ∧ q ∈ g.productions) := by
  cases hs : g.isSymbol q.lhs with
  | true =>
    obtain ⟨p, hp, hlhs, ⟨hsize, hrhs⟩ | ⟨hsize, parts, hstands, hsplits⟩⟩ := he.source q hq hs
    · obtain rfl := Production.eq_of_sides hlhs hrhs
      obtain hzero | hone := Nat.le_one_iff_eq_zero_or_eq_one.mp (Nat.le_of_lt_succ hsize)
      · exact .inr ⟨List.eq_nil_of_length_eq_zero hzero, hp⟩
      · exact .inl (allowsShape_iff.mpr (.inl (List.length_eq_one_iff.mp hone)))
    · refine .inl (he.allowsShape_of_splits (Main.length_parts hsize hstands)
        (fun u hu => ?_) hsplits)
      obtain ⟨s, hs, hsu⟩ := exists_mem_left hstands hu
      exact hsu.upright (occursRight_of_mem hp hs)
  | false =>
    obtain ⟨parts, hl, hsplits⟩ := he.introduced q hq hs
    left
    cases he.sound.formed q.lhs parts hl with
    | @terminal t _ => exact allowsShape_iff.mpr (.inl ⟨t, hsplits.eq_of_length_le (by simp)⟩)
    | several hlength hall => exact he.allowsShape_of_splits hlength hall hsplits

/-- The converted grammar is in weak normal form when the source has no empty productions. -/
theorem Explains.isWeakNormal_iff : h.isWeakNormal = true ↔ ∀ p ∈ g.productions, p.rhs ≠ [] := by
  constructor
  · intro hweak p hp hnil
    -- an empty production is its own main production
    obtain ⟨q, hq, -, ⟨-, hrhs⟩ | ⟨hsize, -⟩⟩ := he.main p hp
    · exact rhs_ne_nil_of_allowsShape (List.all_eq_true.mp hweak q hq) (hrhs.trans hnil)
    · rw [Production.size, hnil, List.length_nil] at hsize
      omega
  · intro hne
    refine List.all_eq_true.mpr fun q hq => ?_
    obtain hshape | ⟨hnil, hsource⟩ := he.allowsShape_or_empty hq
    · exact hshape
    · exact absurd hnil (hne q hsource)

/-- What the source lacks on the right, and naming does not add, the converted grammar lacks
there. -/
theorem Explains.lacks {c : Char} (hg : Lacks g c) (hc : c ∉ "DUMMY_".toList ∧ c ∉ "+".toList) :
    Lacks h c := by
  intro q hq s hs
  obtain hright | ⟨parts, hl⟩ := he.right hq hs
  · exact hg.not_mem hright
  · exact he.sound.not_mem hg hc hl

/-- Without blanks and empty productions in the source, the keys of the converted grammar are
clear. -/
theorem Explains.hasClearKeys (hg : g.HasClearKeys) : h.HasClearKeys := by
  have hweak := he.isWeakNormal_iff.mpr fun p hp => (hg p hp).1
  have hspace := he.lacks (fun p hp => (hg p hp).2) (c := ' ') (by decide)
  intro q hq
  exact ⟨rhs_ne_nil_of_allowsShape (List.all_eq_true.mp hweak q hq), hspace q hq⟩

theorem Explains.spaceFree_of_isNonterminal (hg : g.HasClearKeys)
    (hleft : ∀ p ∈ g.productions, SpaceFree p.lhs) {s : Symbol} (hs : h.isNonterminal s = true) :
    SpaceFree s := by
  obtain ⟨q, hq, rfl⟩ := isNonterminal_iff.mp hs
  cases hsym : g.isSymbol q.lhs with
  | true =>
    obtain ⟨p, hp, hm⟩ := he.source q hq hsym
    rw [hm.1]
    exact hleft p hp
  | false =>
    obtain ⟨parts, hl, -⟩ := he.introduced q hq hsym
    exact he.sound.not_mem (fun p hp => (hg p hp).2) (by decide) hl

theorem Explains.spaceFree_of_mem_symbols (hg : g.HasClearKeys)
    (hleft : ∀ p ∈ g.productions, SpaceFree p.lhs) {s : Symbol} (hs : s ∈ h.symbols) :
    SpaceFree s := by
  obtain hnon | hright := isSymbol_iff.mp (mem_symbols.mp hs)
  · exact he.spaceFree_of_isNonterminal hg hleft hnon
  · obtain ⟨q, hq, hm⟩ := occursRight_iff.mp hright
    exact (he.hasClearKeys hg q hq).2 s hm

end Explains

end Constituency.Conversion
