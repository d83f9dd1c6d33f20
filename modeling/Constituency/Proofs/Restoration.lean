import Mathlib.Order.WellFounded
import Constituency.Proofs.Converted

/-!
Undoing a conversion. An introduced symbol has one production, which defines it. Without the
definitions and with every introduced symbol replaced by what its definition says, the productions
of the source are back, in their order. Replacing ends, because the symbols of a definition weigh
less than the symbol that it defines; and it ends in one way only, because it never changes what a
right-hand side expands to.
-/
namespace Constituency.Conversion

open Grammar Relation

/-- The symbol has productions in the converted grammar and is no symbol of the source. -/
def Introduces (c : Conversion) (s : Symbol) : Prop :=
  s ∈ c.grammar.nonterminals ∧ s ∉ c.source.symbols

instance (c : Conversion) (s : Symbol) : Decidable (c.Introduces s) :=
  inferInstanceAs (Decidable (_ ∧ _))

/-- The productions that define no introduced symbol. -/
def remaining (c : Conversion) : List Production :=
  c.grammar.productions.filter fun p => ¬ c.Introduces p.lhs

/-- In one right-hand side one introduced symbol gives way to the right-hand side of its
production. -/
def Replaces (c : Conversion) (ps qs : List Production) : Prop :=
  ∃ d ∈ c.grammar.productions, c.Introduces d.lhs ∧ ∃ front lhs u v back,
    ps = front ++ ⟨lhs, u ++ d.lhs :: v⟩ :: back ∧ qs = front ++ ⟨lhs, u ++ d.rhs ++ v⟩ :: back

/-- No introduced symbol is left to replace. -/
def Restored (c : Conversion) (ps : List Production) : Prop := ∀ qs, ¬ c.Replaces ps qs

/-- A production remains when the source knows its left-hand side. -/
theorem remaining_eq (c : Conversion) :
    c.remaining = c.grammar.productions.filter fun p => c.source.isSymbol p.lhs := by
  apply List.filter_congr
  intro p hp
  have hnon : p.lhs ∈ c.grammar.nonterminals := mem_nonterminals.mpr ⟨p, hp, rfl⟩
  simp [Introduces, hnon, mem_symbols]

variable {g h : Grammar} {n : Naming}

/-- The production over what its right-hand side expands to. -/
def restore (n : Naming) (p : Production) : Production := ⟨p.lhs, p.rhs.flatMap (expand n)⟩

/-- A known symbol weighs more than those that define it: a part weighs at most two, and a compound
one less than three for each of its parts. -/
def weight (n : Naming) (s : Symbol) : Nat :=
  match n.lookup s with
  | none => 1
  | some parts => 3 * parts.length - 1

def weightOf (n : Naming) : List Symbol → Nat
  | [] => 0
  | s :: rest => weight n s + weightOf n rest

theorem weightOf_append (n : Naming) (ss us : List Symbol) :
    weightOf n (ss ++ us) = weightOf n ss + weightOf n us := by
  induction ss with
  | nil => simp [weightOf]
  | cons s ss ih => simp only [List.cons_append, weightOf, ih, Nat.add_assoc]

/-- The weight of all right-hand sides together. -/
def totalWeight (n : Naming) : List Production → Nat
  | [] => 0
  | p :: rest => weightOf n p.rhs + totalWeight n rest

theorem totalWeight_append (n : Naming) (ps qs : List Production) :
    totalWeight n (ps ++ qs) = totalWeight n ps + totalWeight n qs := by
  induction ps with
  | nil => simp [totalWeight]
  | cons p ps ih => simp only [List.cons_append, totalWeight, ih, Nat.add_assoc]

theorem weight_of_lookup {s : Symbol} {parts : List Symbol} (hl : n.lookup s = some parts) :
    weight n s = 3 * parts.length - 1 := by
  rw [weight, hl]

section Sound

variable (hn : Sound g n)

include hn

theorem Sound.weight_of_isSymbol {s : Symbol} (hs : g.isSymbol s = true) : weight n s = 1 := by
  rw [weight, hn.lookup_of_isSymbol hs]

theorem Sound.weight_of_upright {s : Symbol} (hs : Upright g n s) : weight n s ≤ 2 := by
  obtain ⟨hs, -⟩ | ⟨t, -, hl⟩ := hs
  · rw [hn.weight_of_isSymbol (isSymbol_of_occursRight hs)]
    omega
  · rw [weight_of_lookup hl]
    simp

/-- The right-hand side of a definition weighs less than the symbol. -/
theorem Sound.weightOf_lt {s : Symbol} {parts rhs : List Symbol} (hl : n.lookup s = some parts)
    (hs : Splits n parts rhs) : weightOf n rhs < weight n s := by
  rw [weight_of_lookup hl]
  cases hn.formed s parts hl with
  | @terminal t ht =>
    obtain rfl := hs.eq_of_length_le (by simp)
    simp [weightOf, hn.weight_of_isSymbol (isSymbol_of_isTerminal ht)]
  | several hlength hall =>
    cases hs with
    | short htwo =>
      match parts, hlength, htwo, hall with
      | [b, c], _, _, hall =>
        have hb := hn.weight_of_upright (hall b (by simp))
        have hc := hn.weight_of_upright (hall c (by simp))
        simp only [weightOf, List.length_cons, List.length_nil]
        omega
    | @long front compound last hfront hc =>
      have hlast := hn.weight_of_upright (hall last (by simp))
      have hcompound := weight_of_lookup hc
      simp only [weightOf, List.length_append, List.length_singleton]
      omega

/-- The main productions restore their sources. -/
theorem Sound.map_restore {ps qs : List Production} (hs : List.Forall₂ (Main g n) ps qs)
    (hps : ∀ p ∈ ps, p ∈ g.productions) : qs.map (restore n) = ps := by
  induction hs with
  | nil => rfl
  | @cons p q ps qs hm _ ih =>
    have hrest := ih fun r hr => hps r (List.mem_cons_of_mem _ hr)
    rw [List.map_cons, hrest, restore, hm.1, hm.flatMap_expand hn (hps p List.mem_cons_self)]

end Sound

/-- The main productions are in the order of their sources, and none of them is lost to another. -/
theorem Grows.map_restore {made : List Production} (hgrows : Grows g [] n g.productions made) :
    (made.eraseDups.filter fun q => g.isSymbol q.lhs).map (restore n) = g.productions := by
  have hmap := hgrows.sound.map_restore hgrows.mains fun _ hp => hp
  have hnodup : (made.filter fun q => g.isSymbol q.lhs).Nodup := by
    apply List.Nodup.of_map (restore n)
    rw [hmap]
    exact g.nodup
  rw [filter_eraseDups, eraseDups_of_nodup hnodup, hmap]

section Explains

variable (he : Explains g n h)

include he

/-- The introduced symbols are the known ones. -/
theorem Explains.introduces_iff {s : Symbol} :
    (Conversion.mk g h).Introduces s ↔ ∃ parts, n.lookup s = some parts := by
  rw [Introduces, mem_nonterminals, mem_symbols]
  constructor
  · rintro ⟨⟨q, hq, rfl⟩, hnot⟩
    obtain ⟨parts, hl, -⟩ := he.introduced q hq (by simpa using hnot)
    exact ⟨parts, hl⟩
  · rintro ⟨parts, hl⟩
    refine ⟨isNonterminal_iff.mp (he.isNonterminal_of_lookup hl), ?_⟩
    rw [he.sound.consistent.isSymbol hl]
    exact Bool.false_ne_true

theorem Explains.occursRight_of_isTerminal {t : Symbol} (ht : g.isTerminal t = true) :
    h.occursRight t = true := by
  obtain ⟨q, hq, hrhs⟩ := he.sole_iff.mpr (.inl ht)
  exact occursRight_of_mem hq (by simp [hrhs])

/-- Both grammars have the same terminals. -/
theorem Explains.isTerminal_iff {s : Symbol} : h.isTerminal s = true ↔ g.isTerminal s = true := by
  constructor
  · intro ht
    obtain ⟨hnot, hright⟩ := Grammar.isTerminal_iff.mp ht
    obtain ⟨q, hq, hs⟩ := occursRight_iff.mp hright
    obtain hs | ⟨parts, hl⟩ := he.right hq hs
    · refine Grammar.isTerminal_iff.mpr ⟨?_, hs⟩
      rw [Bool.eq_false_iff] at hnot ⊢
      exact fun hnon => hnot (he.isNonterminal_of_source hnon)
    · cases hnot.symm.trans (he.isNonterminal_of_lookup hl)
  · intro ht
    refine Grammar.isTerminal_iff.mpr ⟨?_, he.occursRight_of_isTerminal ht⟩
    rw [Bool.eq_false_iff]
    intro hnon
    have hsource := he.isNonterminal_of_isSymbol hnon (isSymbol_of_isTerminal ht)
    cases hsource.symm.trans (Grammar.isTerminal_iff.mp ht).1

/-- An introduced symbol has one production. -/
theorem Explains.existsUnique_definition {s : Symbol} {parts : List Symbol}
    (hl : n.lookup s = some parts) : ∃! p, p ∈ h.productions ∧ p.lhs = s := by
  obtain ⟨rhs, hsplits, hp⟩ := he.definition s parts hl
  refine ⟨⟨s, rhs⟩, ⟨hp, rfl⟩, ?_⟩
  rintro q ⟨hq, rfl⟩
  obtain ⟨parts', hl', hsplits'⟩ := he.introduced q hq (he.sound.consistent.isSymbol hl)
  obtain rfl := Option.some.inj (hl.symm.trans hl')
  exact Production.eq_of_sides rfl (hsplits'.unique he.sound hsplits)

/-- A replacement takes weight away. -/
theorem Explains.totalWeight_lt {ps qs : List Production}
    (hr : (Conversion.mk g h).Replaces ps qs) :
    totalWeight n qs < totalWeight n ps := by
  obtain ⟨d, hd, hintro, front, lhs, u, v, back, rfl, rfl⟩ := hr
  obtain ⟨parts, hl⟩ := he.introduces_iff.mp hintro
  obtain ⟨parts', hl', hsplits⟩ := he.introduced d hd (he.sound.consistent.isSymbol hl)
  have hlt := he.sound.weightOf_lt hl' hsplits
  simp only [totalWeight_append, totalWeight, weightOf_append, weightOf]
  omega

/-- A replacement leaves what the right-hand sides expand to. -/
theorem Explains.map_restore_eq {ps qs : List Production}
    (hr : (Conversion.mk g h).Replaces ps qs) :
    qs.map (restore n) = ps.map (restore n) := by
  obtain ⟨d, hd, hintro, front, lhs, u, v, back, rfl, rfl⟩ := hr
  obtain ⟨parts, hl⟩ := he.introduces_iff.mp hintro
  have hexpand := he.flatMap_introduced hd (he.sound.consistent.isSymbol hl)
  simp only [List.map_append, List.map_cons, restore, List.flatMap_append, List.flatMap_cons,
    hexpand, List.append_assoc]

theorem Explains.wellFounded_replaces :
    WellFounded fun qs ps => (Conversion.mk g h).Replaces ps qs :=
  (InvImage.wf (totalWeight n) Nat.lt_wfRel.wf).mono fun _ _ hr => he.totalWeight_lt hr

/-- Where no introduced symbol is left, every right-hand side is its own expansion. -/
theorem Explains.map_restore_of_restored {ps : List Production}
    (hps : (Conversion.mk g h).Restored ps) :
    ps.map (restore n) = ps := by
  have hunknown : ∀ p ∈ ps, ∀ s ∈ p.rhs, n.lookup s = none := by
    intro p hp s hs
    cases hl : n.lookup s with
    | none => rfl
    | some parts =>
      obtain ⟨d, ⟨hd, rfl⟩, -⟩ := he.existsUnique_definition hl
      obtain ⟨front, back, rfl⟩ := List.append_of_mem hp
      obtain ⟨u, v, hrhs⟩ := List.append_of_mem hs
      refine absurd ?_ (hps (front ++ ⟨p.lhs, u ++ d.rhs ++ v⟩ :: back))
      exact ⟨d, hd, he.introduces_iff.mpr ⟨parts, hl⟩, front, p.lhs, u, v, back,
        by rw [← hrhs], rfl⟩
  rw [List.map_congr_left (g := id), List.map_id]
  intro p hp
  exact Production.eq_of_sides rfl
    (flatMap_singleton fun s hs => expand_of_unknown (hunknown p hp s hs))

/-- Replacing ends in a list without introduced symbols. -/
theorem Explains.exists_restored (ps : List Production) :
    ∃ qs, ReflTransGen (Conversion.mk g h).Replaces ps qs ∧ (Conversion.mk g h).Restored qs := by
  induction ps using he.wellFounded_replaces.induction with
  | _ ps ih =>
    by_cases hps : (Conversion.mk g h).Restored ps
    · exact ⟨ps, .refl, hps⟩
    · simp only [Restored, not_forall, not_not] at hps
      obtain ⟨rs, hrs⟩ := hps
      obtain ⟨qs, hreach, hdone⟩ := ih rs hrs
      exact ⟨qs, .head hrs hreach, hdone⟩

/-- The only list in which replacing ends is what the first one restores to. -/
theorem Explains.restored_iff {ps qs : List Production} :
    (ReflTransGen (Conversion.mk g h).Replaces ps qs ∧ (Conversion.mk g h).Restored qs) ↔
      qs = ps.map (restore n) := by
  have hkeep : ∀ rs, ReflTransGen (Conversion.mk g h).Replaces ps rs →
      rs.map (restore n) = ps.map (restore n) := by
    intro rs hrs
    induction hrs with
    | refl => rfl
    | tail _ hstep ih => exact (he.map_restore_eq hstep).trans ih
  constructor
  · intro ⟨hreach, hdone⟩
    rw [← hkeep qs hreach, he.map_restore_of_restored hdone]
  · rintro rfl
    obtain ⟨rs, hreach, hdone⟩ := he.exists_restored ps
    rw [← hkeep rs hreach, he.map_restore_of_restored hdone]
    exact ⟨hreach, hdone⟩

end Explains

end Constituency.Conversion

namespace Constituency

open Conversion Grammar Relation in
/-- A conversion can be undone. It keeps the terminals and adds the introduced symbols to the
nonterminals. Each of these has one production and never stands alone on the right. Replacing them
by what their productions say ends, in any order, and gives the productions of the source in their
order and nothing else. -/
theorem toWeakNormal_restorable {g : Grammar}
    (hbar : ∀ p ∈ g.productions, ∀ s ∈ p.rhs, '|' ∉ s.toList) :
    let c := g.toWeakNormal
    (∀ s, s ∈ c.grammar.terminals ↔ s ∈ g.terminals) ∧
    (∀ s, s ∈ c.grammar.nonterminals ↔ s ∈ g.nonterminals ∨ c.Introduces s) ∧
    (∀ s, ¬ (s ∈ g.nonterminals ∧ c.Introduces s)) ∧
    (∀ s, c.Introduces s → (∃! p, p ∈ c.grammar.productions ∧ p.lhs = s) ∧
      ∀ p ∈ c.grammar.productions, p.rhs ≠ [s]) ∧
    (WellFounded fun qs ps => c.Replaces ps qs) ∧
    ∀ ps, (ReflTransGen c.Replaces c.remaining ps ∧ c.Restored ps) ↔ ps = g.productions := by
  intro c
  obtain ⟨n, made, hgrows, hmade⟩ := exists_grows hbar
  have he : Explains g n c.grammar := hgrows.explains hmade
  refine ⟨?_, ?_, ?_, ?_, he.wellFounded_replaces, ?_⟩
  · intro s
    rw [mem_terminals, mem_terminals, he.isTerminal_iff]
  · intro s
    rw [mem_nonterminals, mem_nonterminals, ← isNonterminal_iff, ← isNonterminal_iff]
    constructor
    · intro hs
      by_cases hsymbol : g.isSymbol s = true
      · exact .inl (he.isNonterminal_of_isSymbol hs hsymbol)
      · exact .inr ⟨mem_nonterminals.mpr (isNonterminal_iff.mp hs), by rwa [mem_symbols]⟩
    · rintro (hs | hs)
      · exact he.isNonterminal_of_source hs
      · exact isNonterminal_iff.mpr (mem_nonterminals.mp hs.1)
  · rintro s ⟨hs, -, hnot⟩
    refine hnot (mem_symbols.mpr (isSymbol_of_isNonterminal ?_))
    exact isNonterminal_iff.mpr (mem_nonterminals.mp hs)
  · intro s hs
    obtain ⟨parts, hl⟩ := he.introduces_iff.mp hs
    refine ⟨he.existsUnique_definition hl, fun p hp hrhs => ?_⟩
    exact hs.2 (mem_symbols.mpr (he.sole hp hrhs).1)
  · intro ps
    have hremaining : c.remaining.map (restore n) = g.productions := by
      rw [remaining_eq, hmade]
      exact hgrows.map_restore
    rw [← hremaining]
    exact he.restored_iff

/-- A symbol that stands in two chains, a name that is taken, and productions that are not
divided. -/
theorem toWeakNormal_restorable_shared :
    let g := Grammar.ofProductions "S"
      [⟨"S", ["A", "B", "x", "C"]⟩, ⟨"S", ["A", "B", "x"]⟩, ⟨"A+B", []⟩, ⟨"A", ["A+B"]⟩,
        ⟨"B", ["x", "x"]⟩]
    let c := g.toWeakNormal
    (∀ s, s ∈ c.grammar.terminals ↔ s ∈ g.terminals) ∧
    (∀ s, s ∈ c.grammar.nonterminals ↔ s ∈ g.nonterminals ∨ c.Introduces s) ∧
    (∀ s, ¬ (s ∈ g.nonterminals ∧ c.Introduces s)) ∧
    (∀ s, c.Introduces s → (∃! p, p ∈ c.grammar.productions ∧ p.lhs = s) ∧
      ∀ p ∈ c.grammar.productions, p.rhs ≠ [s]) ∧
    (WellFounded fun qs ps => c.Replaces ps qs) ∧
    ∀ ps, (Relation.ReflTransGen c.Replaces c.remaining ps ∧ c.Restored ps) ↔ ps = g.productions :=
  toWeakNormal_restorable (by decide +kernel)

end Constituency
