import Constituency.Proofs.Loading
import Constituency.Proofs.Recognition
import Constituency.Proofs.Restoration

/-!
A start symbol without productions. No sentence is accepted for it, and none by the converted
grammar as long as its name is left alone. But an introduced symbol is only kept apart from the
symbols in productions. When it gets the name of the start symbol, the converted grammar accepts
what the introduced symbol stands for.
-/
namespace Constituency.Conversion

open Grammar Relation

variable {g h : Grammar} {n : Naming}

/-- A token that the converted grammar knows is a symbol of the source. -/
theorem Explains.isSymbol_of_known (he : Explains g n h) (hg : g.HasClearKeys) {t : String}
    (ht : SpaceFree t) (hknown : SpanTable.Known h t) : g.isSymbol (quote t) = true := by
  obtain ⟨p, hp⟩ := List.exists_mem_of_ne_nil _ hknown
  obtain ⟨hp, hrhs⟩ := (mem_byRhsKey_singleton (he.hasClearKeys hg) ht.quote).mp hp
  exact (he.sole hp hrhs).1

section Sentence

variable (he : Explains g n h) (hg : g.HasClearKeys) (hleft : ∀ p ∈ g.productions, SpaceFree p.lhs)
  {tokens : List String} (ht : ∀ t ∈ tokens, SpaceFree t)
  (hq : ∀ t ∈ tokens, g.isNonterminal (quote t) = false)

include he hg hleft ht hq

/-- Over terminals of the source, a symbol spans a sentence of the converted grammar when it derives
it. -/
theorem Explains.spans_iff_derives (hsource : ∀ t ∈ tokens, g.isSymbol (quote t) = true)
    (hne : tokens ≠ []) {s : Symbol} :
    h.Spans tokens s 0 tokens.length ↔ h.Derives [s] (tokens.map quote) := by
  have hnon : ∀ t ∈ tokens, h.isNonterminal (quote t) = false := by
    intro t hm
    rw [Bool.eq_false_iff]
    intro hnon
    cases (hq t hm).symm.trans (he.isNonterminal_of_isSymbol hnon (hsource t hm))
  have hweak := he.isWeakNormal_iff.mpr fun p hp => (hg p hp).1
  have hspans :=
    Grammar.spans_iff_derives hweak (fun s => he.spaceFree_of_mem_symbols hg hleft) ht hnon
    (List.length_pos_iff.mpr hne) (Nat.le_refl _) (s := s)
  rwa [part_all] at hspans

/-- An introduced symbol spans the sentences that the source derives from what it stands for. -/
theorem Explains.spans_iff_reaches {s : Symbol} {parts : List Symbol}
    (hl : n.lookup s = some parts) :
    h.Spans tokens s 0 tokens.length ↔ g.Reaches (expand n s) (tokens.map quote) := by
  have hreaches : (∀ u ∈ tokens.map quote, g.isSymbol u = true) →
      (h.Reaches [s] (tokens.map quote) ↔ g.Reaches (expand n s) (tokens.map quote)) := by
    intro hsource
    rw [he.reaches_iff hsource, List.flatMap_singleton]
  constructor
  · intro hspans
    have hsource : ∀ t ∈ tokens, g.isSymbol (quote t) = true := fun t hm =>
      he.isSymbol_of_known hg (ht t hm) (hspans.forall_known t hm)
    have hne : tokens ≠ [] := List.length_pos_iff.mp hspans.lt.1
    have hderives := (he.spans_iff_derives hg hleft ht hq hsource hne).mp hspans
    exact (hreaches (List.forall_mem_map.mpr hsource)).mp hderives.to_reflTransGen
  · intro hreach
    have hsource : ∀ u ∈ tokens.map quote, g.isSymbol u = true :=
      hreach.forall_mem (fun p hp u hu => isSymbol_of_occursRight (occursRight_of_mem hp hu))
        fun u hu => he.sound.isSymbol_of_mem_expand hl hu
    have hne : tokens ≠ [] := by
      have hmap := hreach.ne_nil (fun p hp => (hg p hp).1) (he.sound.expand_ne_nil s)
      simpa using hmap
    refine (he.spans_iff_derives hg hleft ht hq (List.forall_mem_map.mp hsource) hne).mpr ?_
    obtain heq | hderives := reflTransGen_iff_eq_or_transGen.mp ((hreaches hsource).mpr hreach)
    · -- an introduced symbol is no symbol of the source, so it is not what the sentence consists of
      have hs := hsource s (by simp [heq])
      cases (he.sound.consistent.isSymbol hl).symm.trans hs
    · exact hderives

end Sentence

end Constituency.Conversion

namespace Constituency

open Conversion Grammar in
/-- A start symbol without productions accepts no sentence. The conversion accepts none either when
it does not introduce the start symbol. When it does, the start symbol stands for a string of
symbols of the source, and the conversion accepts the sentences that the source derives from this
string. -/
theorem accepted_of_start_without_productions {text : String} {g : Grammar}
    (hload : Grammar.load text = .ok g) (hstart : g.start ∉ g.nonterminals) :
    let c := g.toWeakNormal
    (∀ tokens, g.recognize tokens ≠ .accepted) ∧
    (¬ c.Introduces g.start → ∀ tokens,
      c.recognize tokens ≠ .accepted ∧ (c.parse tokens).outcome ≠ .accepted) ∧
    (c.Introduces g.start → ∃ ss, c.grammar.Reaches [g.start] ss ∧ (∀ s ∈ ss, s ∈ g.symbols) ∧
      ∀ tokens, (∀ t ∈ tokens, Blankless t ∧ quote t ∉ g.nonterminals) →
        (c.recognize tokens = .accepted ↔ g.Reaches ss (tokens.map quote)) ∧
        ((c.parse tokens).outcome = .accepted ↔ g.Reaches ss (tokens.map quote))) := by
  intro c
  have hloadable := loadable_of_load hload
  have hclear := hasClearKeys_of_loadable hloadable
  obtain ⟨n, he⟩ := exists_explains fun p hp => (hloadable p hp).bar_rhs
  have hnot : g.isNonterminal g.start ≠ true := fun hs =>
    hstart (mem_nonterminals.mpr (isNonterminal_iff.mp hs))
  have hrecognize : ∀ tokens, c.recognize tokens = .accepted ↔
      c.grammar.Spans tokens g.start 0 tokens.length := fun _ => recognize_eq_accepted_iff
  refine ⟨?_, ?_, ?_⟩
  · intro tokens haccepted
    exact hnot (recognize_eq_accepted_iff.mp haccepted).isNonterminal
  · intro hintro tokens
    have hnone : ¬ c.grammar.Spans tokens g.start 0 tokens.length := by
      intro hspans
      have hnon := hspans.isNonterminal
      refine hintro ⟨mem_nonterminals.mpr (isNonterminal_iff.mp hnon), fun hs => ?_⟩
      exact hnot (he.isNonterminal_of_isSymbol hnon (mem_symbols.mp hs))
    have hrejected := mt (hrecognize tokens).mp hnone
    exact ⟨hrejected, mt Conversion.outcome_parse_eq_accepted_iff.mp hrejected⟩
  · intro hintro
    obtain ⟨parts, hl⟩ := he.introduces_iff.mp hintro
    refine ⟨expand n g.start, he.reaches_expand g.start, ?_, ?_⟩
    · intro s hs
      exact mem_symbols.mpr (he.sound.isSymbol_of_mem_expand hl hs)
    · intro tokens htokens
      have hq : ∀ t ∈ tokens, g.isNonterminal (quote t) = false := by
        intro t ht
        rw [Bool.eq_false_iff]
        exact fun hs => (htokens t ht).2 (mem_nonterminals.mpr (isNonterminal_iff.mp hs))
      have hspans :=
        he.spans_iff_reaches hclear (fun p hp => (hloadable p hp).blankless_lhs.spaceFree)
        (fun t ht => (htokens t ht).1.spaceFree) hq hl
      have hreaches := (hrecognize tokens).trans hspans
      exact ⟨hreaches, Conversion.outcome_parse_eq_accepted_iff.trans hreaches⟩

/-- The start symbol has the name wanted for `A B`, so the sentence `a b` is accepted without the
word `c`. -/
theorem accepted_of_start_without_productions_compound :
    let g := Grammar.ofProductions "A+B"
      [⟨"S", ["A", "B", quote "c"]⟩, ⟨"A", [quote "a"]⟩, ⟨"B", [quote "b"]⟩]
    let c := g.toWeakNormal
    Grammar.load "%start A+B\nS -> A B \"c\"\nA -> \"a\"\nB -> \"b\"" = .ok g ∧
      g.start ∉ g.nonterminals ∧ (∀ tokens, g.recognize tokens ≠ .accepted) ∧
    (¬ c.Introduces g.start → ∀ tokens,
      c.recognize tokens ≠ .accepted ∧ (c.parse tokens).outcome ≠ .accepted) ∧
    (c.Introduces g.start → ∃ ss, c.grammar.Reaches [g.start] ss ∧ (∀ s ∈ ss, s ∈ g.symbols) ∧
      ∀ tokens, (∀ t ∈ tokens, Blankless t ∧ quote t ∉ g.nonterminals) →
        (c.recognize tokens = .accepted ↔ g.Reaches ss (tokens.map quote)) ∧
        ((c.parse tokens).outcome = .accepted ↔ g.Reaches ss (tokens.map quote))) ∧
    c.Introduces g.start ∧ c.recognize ["a", "b"] = .accepted := by
  intro g c
  have hload : Grammar.load "%start A+B\nS -> A B \"c\"\nA -> \"a\"\nB -> \"b\"" = .ok g := by
    decide +kernel
  have hstart : g.start ∉ g.nonterminals := by decide +kernel
  obtain ⟨hsource, hkept, htaken⟩ := accepted_of_start_without_productions hload hstart
  exact ⟨hload, hstart, hsource, hkept, htaken, by decide +kernel, by decide +kernel⟩

/-- The symbol in front of the word `dog` takes the name of the start symbol, which has no
productions. The source accepts nothing, its conversion a sentence. -/
theorem recognize_toWeakNormal_of_taken_start :
    let g := Grammar.ofProductions "dog" [⟨"S", [quote "dog", "X"]⟩, ⟨"X", [quote "y"]⟩]
    Grammar.load "%start dog\nS -> \"dog\" X\nX -> \"y\"\n" = .ok g ∧ g.start ∉ g.nonterminals ∧
    g.recognize ["dog"] ≠ .accepted ∧ g.toWeakNormal.recognize ["dog"] = .accepted ∧
    (g.toWeakNormal.parse ["dog"]).outcome = .accepted := by
  intro g
  have haccepted : g.toWeakNormal.recognize ["dog"] = .accepted := by decide +kernel
  exact ⟨by decide +kernel, by decide +kernel, by decide +kernel, haccepted,
    Conversion.outcome_parse_eq_accepted_iff.mpr haccepted⟩

end Constituency
