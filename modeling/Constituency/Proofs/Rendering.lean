import Constituency.Proofs.Loading

/-!
The written form of a grammar, read again. Every line of it falls back into the words that it was
put together from, and the line of a production holds no bar. So a grammar reads back as itself
exactly when its symbols are such as a definition can give, and a loaded grammar always does.
-/
namespace Constituency

open Text

/-- What is written before a line end reads as a line when spaces are its only blanks. -/
theorem Text.lines_append_newline {s : String} (h : ∀ c, isBlank c = true → c ≠ ' ' → c ∉ s.toList)
    (t : String) : lines (s ++ "\n" ++ t).toList = s.toList :: lines t.toList := by
  have htext : (s ++ "\n" ++ t).toList = s.toList ++ '\n' :: t.toList := by
    rw [String.toList_append, String.toList_append, List.append_assoc]
    rfl
  have hfeed : '\n' ∉ s.toList := h '\n' isBlank_newline (by decide)
  have hreturn : s.toList.getLast? ≠ some '\r' := fun hlast =>
    h '\r' isBlank_return (by decide) (List.mem_of_getLast? hlast)
  rw [htext]
  exact (Lined.feed hfeed hreturn (lined_lines _)).lines_eq

theorem IsWord.toList_ne_nil {s : String} (h : IsWord s) : s.toList ≠ [] := by
  simpa using h.ne_empty

theorem IsWord.words_toList {s : String} (h : IsWord s) : words s.toList = [s.toList] :=
  words_eq_singleton h.toList_ne_nil h.blankless

theorem IsWord.not_mem {s : String} (h : IsWord s) {c : Char} (hc : isBlank c = true) :
    c ∉ s.toList := by
  intro hm
  rw [h.blankless c hm] at hc
  cases hc

theorem isWord_arrow : IsWord "->" := by decide

theorem isWord_directive : IsWord "%start" := by decide

namespace Production

theorem toList_renderRhs_cons (s : Symbol) (rest : List Symbol) :
    (renderRhs (s :: rest)).toList = ' ' :: (s.toList ++ (renderRhs rest).toList) := by
  rw [renderRhs, String.toList_append, String.toList_append]
  rfl

theorem toList_render (p : Production) :
    p.render.toList = p.lhs.toList ++ ' ' :: (Definition.arrow ++ (renderRhs p.rhs).toList) := by
  rw [render, String.toList_append, String.toList_append, List.append_assoc]
  rfl

theorem not_mem_renderRhs {c : Char} (hc : c ≠ ' ') {rhs : List Symbol}
    (h : ∀ s ∈ rhs, c ∉ s.toList) :
    c ∉ (renderRhs rhs).toList := by
  induction rhs with
  | nil => simp [renderRhs]
  | cons s rest ih =>
    have hs := h s List.mem_cons_self
    have hrest := ih fun t ht => h t (List.mem_cons_of_mem _ ht)
    simp [toList_renderRhs_cons, hc, hs, hrest]

/-- A right-hand side adds its symbols to the words of what it is written after. -/
theorem words_append_renderRhs {rhs : List Symbol} (h : ∀ s ∈ rhs, IsWord s) (front : List Char) :
    words (front ++ (renderRhs rhs).toList) = words front ++ rhs.map String.toList := by
  induction rhs generalizing front with
  | nil => simp [renderRhs]
  | cons s rest ih =>
    have hrest := ih (fun t ht => h t (List.mem_cons_of_mem _ ht)) s.toList
    rw [toList_renderRhs_cons, words_append_blank isBlank_space, hrest,
      (h s List.mem_cons_self).words_toList, List.map_cons]
    rfl

namespace Loadable

variable {p : Production} (h : p.Loadable)

include h

theorem isWord_rhs : ∀ s ∈ p.rhs, IsWord s := fun s hs => (h.rhs s hs).toIsWord

/-- From its third word on, a written production has the words of its right-hand side and no bar. -/
theorem fromThird_render :
    ∃ text, Text.FromThird p.lhs.toList Definition.arrow p.render.toList text ∧
    words text = p.rhs.map String.toList ∧ '|' ∉ text := by
  obtain ⟨s, rest, hrhs⟩ := List.exists_cons_of_ne_nil h.rhs_ne_nil
  have hs : IsWord s := h.isWord_rhs s (by simp [hrhs])
  have hrest : ∀ t ∈ rest, IsWord t := fun t ht => h.isWord_rhs t (by simp [hrhs, ht])
  have hbar : '|' ∉ (renderRhs p.rhs).toList := not_mem_renderRhs (by decide) h.bar_rhs
  have hfront :
      words (p.lhs.toList ++ ' ' :: Definition.arrow) = [p.lhs.toList, Definition.arrow] := by
    rw [words_append_blank isBlank_space, h.lhs.words_toList]
    rfl
  have hwords := words_append_renderRhs hrest s.toList
  rw [hs.words_toList] at hwords
  rw [toList_render, hrhs, toList_renderRhs_cons, ← List.cons_append, ← List.append_assoc]
  rw [hrhs, toList_renderRhs_cons, List.mem_cons, not_or] at hbar
  obtain ⟨c, tail, hcons⟩ := List.exists_cons_of_ne_nil hs.toList_ne_nil
  rw [hcons] at hwords hbar ⊢
  have hc : isBlank c = false := hs.blankless c (by simp [hcons])
  refine ⟨_, .intro hfront isBlank_space hc, hwords.trans ?_, hbar.2⟩
  rw [List.map_cons, hcons]
  rfl

/-- The only blanks in a written production are spaces. -/
theorem not_mem_render {c : Char} (hblank : isBlank c = true) (hc : c ≠ ' ') :
    c ∉ p.render.toList := by
  have harrow : c ∉ Definition.arrow := isWord_arrow.not_mem hblank
  have hrhs := not_mem_renderRhs hc fun s hs => (h.isWord_rhs s hs).not_mem hblank
  simp [toList_render, h.lhs.not_mem hblank, hc, harrow, hrhs]

end Loadable

end Production

namespace Statement

/-- A written production is a rule with itself as the only alternative. -/
theorem says_render {p : Production} (h : p.Loadable) : Says p.render.toList (.rule [p]) := by
  obtain ⟨text, htext, hwords, hbar⟩ := h.fromThird_render
  have hopens : Definition.OpensRule p.lhs.toList :=
    ⟨h.lhs.no_comment, fun heq => h.lhs.no_directive (String.toList_inj.mp heq)⟩
  have hone : text.splitOn '|' = [text] := by
    rw [List.splitOn_eq_splitOnP]
    exact List.splitOnP_eq_singleton fun c hc => decide_eq_false fun heq => hbar (heq ▸ hc)
  have hne : words text ≠ [] := by simpa [hwords] using h.rhs_ne_nil
  have harrow : Definition.arrow ∉ words text := by
    rw [hwords]
    intro hm
    obtain ⟨s, hs, heq⟩ := List.mem_map.mp hm
    exact (h.rhs s hs).no_arrow (String.toList_inj.mp heq)
  have hparts : ∀ part ∈ text.splitOn '|', Definition.IsAlternative part := by
    intro part hpart
    rw [hone, List.mem_singleton] at hpart
    exact hpart ▸ ⟨hne, harrow⟩
  have hself : (text.splitOn '|').map (Definition.alternative p.lhs.toList) = [p] := by
    simp [hone, Definition.alternative, hwords]
  rw [← hself]
  exact .rule hopens htext hparts

theorem toList_directive (start : Symbol) :
    ("%start " ++ start).toList = Definition.startWord ++ ' ' :: start.toList := by
  rw [String.toList_append]
  rfl

theorem says_directive {start : Symbol} (h : IsWord start) :
    Says ("%start " ++ start).toList (.start start) := by
  have hwords : words ("%start " ++ start).toList = [Definition.startWord, start.toList] := by
    rw [toList_directive, words_append_blank isBlank_space, h.words_toList]
    rfl
  simpa using Says.start hwords

theorem readAll_render {g : Grammar} (h : g.Loadable) (number : Nat) :
    readAll number (("%start " ++ g.start).toList :: g.productions.map fun p => p.render.toList) =
      .ok (.start g.start :: g.productions.map fun p => .rule [p]) := by
  refine readAll_eq_ok_iff.mpr (.cons (says_directive h.start) ?_)
  rw [List.forall₂_map_left_iff, List.forall₂_map_right_iff, List.forall₂_same]
  exact fun p hp => says_render (h.productions p hp)

end Statement

theorem Definition.ofStatements_start_rules (start : Symbol) (ps : List Production) :
    ofStatements (.start start :: ps.map fun p => .rule [p]) = ⟨some start, ps⟩ := by
  have hstarts : (ps.map fun p => Statement.rule [p]).filterMap Statement.start? = [] := by
    simp [Statement.start?]
  have hproductions : (ps.map fun p => Statement.rule [p]).flatMap Statement.productions = ps := by
    simp [List.flatMap_map, Statement.productions]
  simp only [ofStatements, List.filterMap_cons, List.flatMap_cons, Statement.start?, hstarts,
    hproductions]
  rfl

namespace Grammar

theorem lines_renderProductions {ps : List Production} (h : ∀ p ∈ ps, p.Loadable) :
    lines (renderProductions ps).toList = ps.map fun p => p.render.toList := by
  induction ps with
  | nil => rfl
  | cons p rest ih =>
    have hline : ∀ c, isBlank c = true → c ≠ ' ' → c ∉ p.render.toList := fun _ hblank hc =>
      (h p List.mem_cons_self).not_mem_render hblank hc
    rw [renderProductions, lines_append_newline hline,
      ih fun q hq => h q (List.mem_cons_of_mem _ hq), List.map_cons]

theorem lines_render {g : Grammar} (h : g.Loadable) :
    lines g.render.toList = ("%start " ++ g.start).toList :: g.productions.map fun p =>
      p.render.toList := by
  have hline : ∀ c, isBlank c = true → c ≠ ' ' → c ∉ ("%start " ++ g.start).toList := by
    intro c hblank hc
    have hdirective : c ∉ Definition.startWord := isWord_directive.not_mem hblank
    rw [Statement.toList_directive, List.mem_append, List.mem_cons]
    simp only [hdirective, hc, h.start.not_mem hblank, or_self, not_false_eq_true]
  rw [render, lines_append_newline hline, lines_renderProductions h.productions]

/-- The written form says what the grammar is made of. -/
theorem read_render {g : Grammar} (h : g.Loadable) :
    Definition.read g.render = .ok ⟨some g.start, g.productions⟩ := by
  have hstatements := Definition.ofStatements_start_rules g.start g.productions
  rw [Definition.read, lines_render h, Statement.readAll_render h, Except.map, hstatements]

theorem load_render {g : Grammar} (h : g.Loadable) (hne : g.productions ≠ []) :
    load g.render = .ok g := by
  rw [load, read_render h]
  simp [Definition.startSymbol, build, hne, ofProductions_productions]

end Grammar

/-- A grammar reads back from its written form exactly when its symbols are such as a definition can
give. So a grammar that comes from a text does. -/
theorem load_render_iff :
    (∀ start ps g, Grammar.build start ps = .ok g → (Grammar.load g.render = .ok g ↔ g.Loadable)) ∧
    ∀ text g, Grammar.load text = .ok g → Grammar.load g.render = .ok g := by
  refine ⟨fun start ps g hbuild => ⟨Grammar.Loadable.of_load, fun hloadable => ?_⟩,
    fun text g hload => ?_⟩
  · exact Grammar.load_render hloadable (Grammar.productions_ne_nil_of_build hbuild)
  · exact Grammar.load_render (.of_load hload) (Grammar.productions_ne_nil_of_load hload)

/-- Marks that only one side of a rule may hold, and a text with every kind of line. -/
theorem load_render_iff_marks :
    let g := Grammar.ofProductions "#" [⟨"->", ["#", "%start"]⟩, ⟨"A|B", ["A"]⟩]
    let g' := Grammar.ofProductions "#" [⟨"->", ["#", "%start"]⟩, ⟨"A", ["A|B"]⟩]
    ((Grammar.load g.render = .ok g ↔ g.Loadable) ∧ g.Loadable) ∧
    ((Grammar.load g'.render = .ok g' ↔ g'.Loadable) ∧ ¬ g'.Loadable) ∧
    Grammar.load "%start #\n # -> note\n\n-> -> # %start\r\nA|B -> A | A" = .ok g ∧
    Grammar.load g.render = .ok g := by
  intro g g'
  have hload : Grammar.load "%start #\n # -> note\n\n-> -> # %start\r\nA|B -> A | A" = .ok g := by
    decide +kernel
  exact ⟨⟨load_render_iff.1 "#" [⟨"->", ["#", "%start"]⟩, ⟨"A|B", ["A"]⟩] g rfl, by decide +kernel⟩,
    ⟨load_render_iff.1 "#" [⟨"->", ["#", "%start"]⟩, ⟨"A", ["A|B"]⟩] g' rfl, by decide +kernel⟩,
    hload, load_render_iff.2 _ g hload⟩

end Constituency
