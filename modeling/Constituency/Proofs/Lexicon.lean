import Mathlib.Data.List.Find
import Constituency.Proofs.Agreement
import Constituency.Proofs.Converted
import Constituency.Proofs.Loading

/-!
Unknown tokens. Recognizing and parsing stop at the first token that the lexicon does not know. A
token is known when its terminal, cut at its spaces, is a right-hand side, so a token without a
space is known when its terminal stands alone on the right. After a conversion this is so for every
terminal of the source, wherever it stood, and for no symbol that naming introduced.
-/
namespace Constituency

namespace SpanTable

variable {g : Grammar}

theorem known_iff_exists {t : String} : Known g t ↔ ∃ p, p ∈ g.byRhsKey (quote t) :=
  ⟨List.exists_mem_of_ne_nil _, fun ⟨_, hp⟩ => List.ne_nil_of_mem hp⟩

/-- With clear keys a token is known when its terminal, cut at its spaces, is a right-hand side. -/
theorem known_iff_cutKey (hg : g.HasClearKeys) {t : String} :
    Known g t ↔ ∃ p ∈ g.productions, p.rhs = cutKey (quote t) := by
  simp only [known_iff_exists, Grammar.mem_byRhsKey_iff hg]

/-- With clear keys a token without a space is known when its terminal stands alone on the right. -/
theorem known_iff (hg : g.HasClearKeys) {t : String} (ht : SpaceFree t) :
    Known g t ↔ ∃ p ∈ g.productions, p.rhs = [quote t] := by
  rw [known_iff_cutKey hg, cutKey_of_spaceFree ht.quote]

/-- A token is known after a conversion when its terminal belongs to the source, or is a right-hand
side there. -/
theorem known_iff_of_explains {h : Grammar} {n : Naming} (he : Conversion.Explains g n h)
    (hg : g.HasClearKeys) {t : String} (ht : SpaceFree t) :
    Known h t ↔ g.isTerminal (quote t) = true ∨ ∃ p ∈ g.productions, p.rhs = [quote t] := by
  rw [known_iff (he.hasClearKeys hg) ht, he.sole_iff]

end SpanTable

section Outcome

variable {g : Grammar} {tokens : List String} {t : String}

theorem recognize_eq_unknownToken_iff :
    g.recognize tokens = .unknownToken t ↔
      ∃ e, SpanTable.lexicon g 0 tokens = .error e ∧ e.token = t := by
  cases hfill : SpanTable.fill SymbolSet g tokens with
  | error e =>
    have hlex := SpanTable.fill_eq_error_iff.mp hfill
    simp [Grammar.recognize, hfill, hlex]
  | ok table =>
    have hlex : ∀ e, SpanTable.lexicon g 0 tokens ≠ .error e := by
      intro e he
      cases hfill.symm.trans (SpanTable.fill_eq_error_iff.mpr he)
    rw [recognize_of_table hfill]
    split <;> simp [hlex]

theorem outcome_parse_eq_unknownToken_iff :
    (g.parse tokens).outcome = .unknownToken t ↔
      ∃ e, SpanTable.lexicon g 0 tokens = .error e ∧ e.token = t := by
  cases hchart : g.chart tokens with
  | error e =>
    have hlex := Chart.chart_eq_error_iff.mp hchart
    simp [Grammar.parse, hchart, hlex]
  | ok c =>
    have hlex : ∀ e, SpanTable.lexicon g 0 tokens ≠ .error e := by
      intro e he
      cases hchart.symm.trans (Chart.chart_eq_error_iff.mpr he)
    rw [outcome_of_chart hchart]
    split <;> simp [hlex]

variable {missing : String → Prop} [DecidablePred missing]

/-- The lexicon stops at the first token that is missing. -/
theorem exists_lexicon_error_iff (hmissing : ∀ u ∈ tokens, missing u ↔ ¬ SpanTable.Known g u) :
    (∃ e, SpanTable.lexicon g 0 tokens = .error e ∧ e.token = t) ↔
      tokens.find? (fun u => missing u) = some t := by
  constructor
  · rintro ⟨e, hlex, rfl⟩
    obtain ⟨front, back, rfl, -, hfront, hunknown⟩ := SpanTable.lexicon_eq_error_iff.mp hlex
    have hfirst : missing e.token := (hmissing e.token (by simp)).mpr hunknown
    refine List.find?_eq_some_iff_append.mpr ⟨decide_eq_true hfirst, front, back, rfl,
      fun u hu => ?_⟩
    have hpresent : ¬ missing u := fun hm => (hmissing u (by simp [hu])).mp hm (hfront u hu)
    simpa using hpresent
  · intro hfind
    obtain ⟨hfirst, front, back, rfl, hfront⟩ := List.find?_eq_some_iff_append.mp hfind
    have hunknown := (hmissing t (by simp)).mp (of_decide_eq_true hfirst)
    refine ⟨⟨t, front.length⟩, SpanTable.lexicon_eq_error_iff.mpr ?_, rfl⟩
    refine ⟨front, back, rfl, by simp, fun u hu => ?_, hunknown⟩
    by_contra hu'
    have hm : missing u := (hmissing u (by simp [hu])).mpr hu'
    simpa [hm] using hfront u hu

/-- Recognizing and parsing stop at the first token that is missing. -/
theorem unknownToken_iff_find? (hmissing : ∀ u ∈ tokens, missing u ↔ ¬ SpanTable.Known g u) :
    (g.recognize tokens = .unknownToken t ↔ tokens.find? (fun u => missing u) = some t) ∧
    ((g.parse tokens).outcome = .unknownToken t ↔ tokens.find? (fun u => missing u) = some t) := by
  rw [recognize_eq_unknownToken_iff, outcome_parse_eq_unknownToken_iff,
    exists_lexicon_error_iff hmissing]
  exact ⟨.rfl, .rfl⟩

end Outcome

/-- Recognizing and parsing stop at the first token whose terminal, cut at its spaces, is no
right-hand side. When no token holds a space, this is the first token whose terminal stands nowhere
alone on the right. -/
theorem recognize_parse_unknownToken_iff {text : String} {g : Grammar}
    (hload : Grammar.load text = .ok g) (tokens : List String) (t : String) :
    ((g.recognize tokens = .unknownToken t ↔
        tokens.find? (fun u => ∀ p ∈ g.productions, p.rhs ≠ cutKey (quote u)) = some t) ∧
      ((g.parse tokens).outcome = .unknownToken t ↔
        tokens.find? (fun u => ∀ p ∈ g.productions, p.rhs ≠ cutKey (quote u)) = some t)) ∧
    ((∀ u ∈ tokens, SpaceFree u) →
      (g.recognize tokens = .unknownToken t ↔
        tokens.find? (fun u => ∀ p ∈ g.productions, p.rhs ≠ [quote u]) = some t) ∧
      ((g.parse tokens).outcome = .unknownToken t ↔
        tokens.find? (fun u => ∀ p ∈ g.productions, p.rhs ≠ [quote u]) = some t)) := by
  have hclear := hasClearKeys_of_loadable (loadable_of_load hload)
  refine ⟨unknownToken_iff_find? fun u _ => ?_, fun hfree => unknownToken_iff_find? fun u hu => ?_⟩
  · rw [SpanTable.known_iff_cutKey hclear]
    push Not
    exact .rfl
  · rw [SpanTable.known_iff hclear (hfree u hu)]
    push Not
    exact .rfl

/-- A token that is cut into a right-hand side with two symbols is known, and one that is not is
unknown. -/
theorem recognize_parse_unknownToken_iff_spaced :
    let g := Grammar.ofProductions "S" [⟨"S", [quote "x", quote "y"]⟩, ⟨"S", [quote ""]⟩]
    let spaced := ["x\" \"y", "", "y\" \"x", "x"]
    let t := "y\" \"x"
    let plain := ["", "x", "y"]
    Grammar.load "S -> \"x\" \"y\" | \"\"" = .ok g ∧
    ((g.recognize spaced = .unknownToken t ↔
        spaced.find? (fun u => ∀ p ∈ g.productions, p.rhs ≠ cutKey (quote u)) = some t) ∧
      ((g.parse spaced).outcome = .unknownToken t ↔
        spaced.find? (fun u => ∀ p ∈ g.productions, p.rhs ≠ cutKey (quote u)) = some t)) ∧
    g.recognize spaced = .unknownToken t ∧
    ((g.recognize plain = .unknownToken "x" ↔
        plain.find? (fun u => ∀ p ∈ g.productions, p.rhs ≠ [quote u]) = some "x") ∧
      ((g.parse plain).outcome = .unknownToken "x" ↔
        plain.find? (fun u => ∀ p ∈ g.productions, p.rhs ≠ [quote u]) = some "x")) ∧
    g.recognize plain = .unknownToken "x" := by
  intro g spaced t plain
  have hload : Grammar.load "S -> \"x\" \"y\" | \"\"" = .ok g := by decide +kernel
  exact ⟨hload, (recognize_parse_unknownToken_iff hload spaced t).1, by decide +kernel,
    (recognize_parse_unknownToken_iff hload plain "x").2 (by decide +kernel), by decide +kernel⟩

/-- The terminal for this token is no right-hand side, but it reads like one with two symbols, so
the token is accepted as a sentence. -/
theorem recognize_token_with_space :
    let g := Grammar.ofProductions "S" [⟨"S", [quote "x", quote "y"]⟩]
    let t := "x\" \"y"
    Grammar.load "S -> \"x\" \"y\"\n" = .ok g ∧
    [t].find? (fun u => ∀ p ∈ g.productions, p.rhs ≠ [quote u]) = some t ∧
    g.recognize [t] = .accepted ∧ (g.parse [t]).outcome = .accepted := by
  intro g t
  have haccepted : g.recognize [t] = .accepted := by decide +kernel
  exact ⟨by decide +kernel, by decide +kernel, haccepted,
    outcome_parse_eq_accepted_iff.mpr (recognize_eq_accepted_iff.mp haccepted)⟩

open Conversion in
/-- The conversion of a grammar knows the vocabulary of the grammar: it stops at the first token
whose terminal is no terminal of the source and no right-hand side there. -/
theorem toWeakNormal_unknownToken_iff {text : String} {g : Grammar}
    (hload : Grammar.load text = .ok g) {tokens : List String} (hfree : ∀ u ∈ tokens, SpaceFree u)
    (t : String) :
    let c := g.toWeakNormal
    (c.recognize tokens = .unknownToken t ↔ tokens.find? (fun u =>
      quote u ∉ g.terminals ∧ ∀ p ∈ g.productions, p.rhs ≠ [quote u]) = some t) ∧
    ((c.parse tokens).outcome = .unknownToken t ↔ tokens.find? (fun u =>
      quote u ∉ g.terminals ∧ ∀ p ∈ g.productions, p.rhs ≠ [quote u]) = some t) := by
  intro c
  have hloadable := loadable_of_load hload
  obtain ⟨n, he⟩ := exists_explains fun p hp => (hloadable p hp).bar_rhs
  refine unknownToken_iff_find? fun u hu => ?_
  rw [SpanTable.known_iff_of_explains he (hasClearKeys_of_loadable hloadable) (hfree u hu),
    Grammar.mem_terminals]
  push Not
  exact .rfl

/-- Introduced symbols that are spelled like terminals: `"x"` in front of the word `"x"`, and
`"a+b"` for two symbols with a quote each. -/
theorem toWeakNormal_unknownToken_iff_quoted :
    let g := Grammar.ofProductions "S" [⟨"S", [quote (quote "x"), "A"]⟩, ⟨"A", ["\"a", "b\"", "A"]⟩,
      ⟨"\"a", ["A"]⟩, ⟨"b\"", ["A"]⟩, ⟨"A", [quote "y"]⟩]
    let c := g.toWeakNormal
    let tokens := [quote "x", "y", "a+b", "x"]
    Grammar.load "S -> \"\"x\"\" A\nA -> \"a b\" A\n\"a -> A\nb\" -> A\nA -> \"y\"" = .ok g ∧
    (c.recognize tokens = .unknownToken "a+b" ↔ tokens.find? (fun u =>
      quote u ∉ g.terminals ∧ ∀ p ∈ g.productions, p.rhs ≠ [quote u]) = some "a+b") ∧
    ((c.parse tokens).outcome = .unknownToken "a+b" ↔ tokens.find? (fun u =>
      quote u ∉ g.terminals ∧ ∀ p ∈ g.productions, p.rhs ≠ [quote u]) = some "a+b") ∧
    c.grammar.isNonterminal (quote "a+b") = true ∧ c.recognize tokens = .unknownToken "a+b" := by
  intro g c tokens
  have hload :
      Grammar.load "S -> \"\"x\"\" A\nA -> \"a b\" A\n\"a -> A\nb\" -> A\nA -> \"y\"" = .ok g := by
    decide +kernel
  have hfree : ∀ u ∈ tokens, SpaceFree u := by decide +kernel
  have hmissing := toWeakNormal_unknownToken_iff hload hfree "a+b"
  exact ⟨hload, hmissing.1, hmissing.2, by decide +kernel, by decide +kernel⟩

end Constituency
