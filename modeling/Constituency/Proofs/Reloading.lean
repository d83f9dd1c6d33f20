import Constituency.Parsing
import Constituency.Proofs.Converted
import Constituency.Proofs.Rendering
import Constituency.Proofs.Termination

/-!
A converted grammar in its written form. A name that is not reserved opens a rule as well as it
stands in one, and naming adds no blanks to the words of a loaded grammar. So what is introduced can
be read again, and the converted grammar reads back as itself.
-/
namespace Constituency

/-- Of texts without blanks the reserved ones are those that cannot stand on both sides of a
rule. -/
theorem Naming.isReserved_eq_false_iff {s : Symbol} (hs : Blankless s) :
    isReserved s = false ↔ LeftWord s ∧ RightWord s := by
  have hforms : isReserved s = false ↔
      s ≠ "" ∧ s.toList.head? ≠ some '#' ∧ '|' ∉ s.toList ∧ s ≠ "%start" ∧ s ≠ "->" := by
    simp [isReserved, and_assoc]
  rw [hforms]
  constructor
  · rintro ⟨hempty, hcomment, hbar, hdirective, harrow⟩
    exact ⟨⟨⟨hempty, hs⟩, hcomment, hdirective⟩, ⟨⟨hempty, hs⟩, hbar, harrow⟩⟩
  · rintro ⟨hleft, hright⟩
    exact ⟨hleft.ne_empty, hleft.no_comment, hright.no_bar, hleft.no_directive, hright.no_arrow⟩

namespace Conversion

variable {g h : Grammar} {n : Naming}

/-- Naming adds no blanks. -/
theorem Sound.blankless (hn : Sound g n) (hg : ∀ p ∈ g.productions, p.Loadable) {s : Symbol}
    {parts : List Symbol} (hl : n.lookup s = some parts) : Blankless s := by
  intro c hc
  by_contra hblank
  rw [Bool.not_eq_false] at hblank
  have hlacks : Lacks g c := fun p hp t ht => ((hg p hp).isWord_rhs t ht).not_mem hblank
  have hmark : IsWord "DUMMY_" := by decide
  have hplus : IsWord "+" := by decide
  exact hn.not_mem hlacks ⟨hmark.not_mem hblank, hplus.not_mem hblank⟩ hl hc

/-- An introduced symbol can stand on either side of a written rule. -/
theorem Sound.leftWord_rightWord (hn : Sound g n) (hg : ∀ p ∈ g.productions, p.Loadable)
    {s : Symbol} {parts : List Symbol} (hl : n.lookup s = some parts) : LeftWord s ∧ RightWord s :=
  (Naming.isReserved_eq_false_iff (hn.blankless hg hl)).mp
    (Naming.admits_iff.mp (hn.consistent.admits hl)).1

theorem rightWord_of_occursRight (hg : ∀ p ∈ g.productions, p.Loadable) {s : Symbol}
    (hs : g.occursRight s = true) : RightWord s := by
  obtain ⟨p, hp, hm⟩ := Grammar.occursRight_iff.mp hs
  exact (hg p hp).rhs s hm

/-- The productions of the converted grammar are as a definition can give them. -/
theorem Explains.loadable (he : Explains g n h) (hg : ∀ p ∈ g.productions, p.Loadable) :
    ∀ q ∈ h.productions, q.Loadable := by
  intro q hq
  refine ⟨?_, (he.hasClearKeys (hasClearKeys_of_loadable hg) q hq).1, fun s hs => ?_⟩
  · cases hsource : g.isSymbol q.lhs with
    | true =>
      obtain ⟨p, hp, hm⟩ := he.source q hq hsource
      rw [hm.1]
      exact (hg p hp).lhs
    | false =>
      obtain ⟨parts, hl, -⟩ := he.introduced q hq hsource
      exact (he.sound.leftWord_rightWord hg hl).1
  · obtain hright | ⟨parts, hl⟩ := he.right hq hs
    · exact rightWord_of_occursRight hg hright
    · exact (he.sound.leftWord_rightWord hg hl).2

theorem Explains.productions_ne_nil (he : Explains g n h) (hne : g.productions ≠ []) :
    h.productions ≠ [] := by
  obtain ⟨p, hp⟩ := List.exists_mem_of_ne_nil _ hne
  obtain ⟨q, hq, -⟩ := he.main p hp
  exact List.ne_nil_of_mem hq

end Conversion

open Conversion in
/-- The conversion of a loaded grammar ends, in one way. What it gives is read back from its written
form, and the grammar that is read recognizes and parses alike. -/
theorem load_render_toWeakNormal {text : String} {g : Grammar} (hload : Grammar.load text = .ok g) :
    (∀ c, g.Converts c ↔ c = g.toWeakNormal) ∧
    ∃ r, Grammar.load g.toWeakNormal.grammar.render = .ok r ∧ r = g.toWeakNormal.grammar ∧
      ∀ tokens, r.recognize tokens = g.toWeakNormal.grammar.recognize tokens ∧
        r.parse tokens = g.toWeakNormal.grammar.parse tokens := by
  have hg := Grammar.Loadable.of_load hload
  have hbar : ∀ p ∈ g.productions, ∀ s ∈ p.rhs, '|' ∉ s.toList :=
    fun p hp => (hg.productions p hp).bar_rhs
  obtain ⟨n, he⟩ := exists_explains hbar
  have hconverted : g.toWeakNormal.grammar.Loadable := ⟨hg.start, he.loadable hg.productions⟩
  have hne := he.productions_ne_nil (Grammar.productions_ne_nil_of_load hload)
  exact ⟨fun c => Grammar.converts_iff hbar, _, Grammar.load_render hconverted hne, rfl,
    fun tokens => ⟨rfl, rfl⟩⟩

/-- Words that a line would take for a comment, a directive, an arrow, or nothing at all. -/
theorem load_render_toWeakNormal_marks :
    let text := "S -> A \"#\" B | \"%start\" A \"->\" | \"\" \"\"\nA -> #x #x A\nB -> A"
    let g := Grammar.ofProductions "S"
      [⟨"S", ["A", quote "#", "B"]⟩, ⟨"S", [quote "%start", "A", quote "->"]⟩,
        ⟨"S", [quote "", quote ""]⟩, ⟨"A", ["#x", "#x", "A"]⟩, ⟨"B", ["A"]⟩]
    Grammar.load text = .ok g ∧ (∀ c, g.Converts c ↔ c = g.toWeakNormal) ∧
      ∃ r, Grammar.load g.toWeakNormal.grammar.render = .ok r ∧ r = g.toWeakNormal.grammar ∧
        ∀ tokens, r.recognize tokens = g.toWeakNormal.grammar.recognize tokens ∧
          r.parse tokens = g.toWeakNormal.grammar.parse tokens := by
  intro text g
  have hload : Grammar.load text = .ok g := by decide +kernel
  exact ⟨hload, load_render_toWeakNormal hload⟩

end Constituency
