import Mathlib.Data.List.Forall2
import Mathlib.Tactic.ByContra
import Mathlib.Tactic.Push
import Constituency.Proofs.Cutting

/-!
The format of a definition. A line says nothing, names the start symbol, or is a rule, and any other
line has a fault. Reading a text gives the fault of its first faulty line. Without one it gives the
grammar of all that the lines say, if there is a rule among them.
-/
namespace Constituency

open Text

theorem exists_of_map_eq_ok {α β ε : Type} {f : α → β} {x : Except ε α} {b : β}
    (h : x.map f = .ok b) :
    ∃ a, x = .ok a ∧ f a = b := by
  cases x with
  | error e => cases h
  | ok a => exact ⟨a, rfl, Except.ok.inj h⟩

namespace Definition

/-- The word can be the left-hand side of a rule: it opens no comment and is not the directive. -/
def OpensRule (first : List Char) : Prop := first.head? ≠ some '#' ∧ first ≠ startWord

/-- The part has a word, and no arrow among its words. -/
def IsAlternative (part : List Char) : Prop := words part ≠ [] ∧ arrow ∉ words part

/-- What such a part stands for, after this left-hand side. -/
def alternative (lhs part : List Char) : Production :=
  ⟨String.ofList lhs, (words part).map String.ofList⟩

variable {number : Nat} {line lhs part : List Char}

theorem readAlternative_of_isAlternative (h : IsAlternative part) :
    readAlternative number line (String.ofList lhs) part = .ok (alternative lhs part) := by
  rw [readAlternative, if_neg h.1, if_neg h.2]
  rfl

theorem readAlternative_of_empty (h : words part = []) :
    readAlternative number line (String.ofList lhs) part =
      .error (.emptyAlternative number (shown line)) := by
  rw [readAlternative, if_pos h]

theorem readAlternative_of_arrow (h : arrow ∈ words part) :
    readAlternative number line (String.ofList lhs) part =
      .error (.malformedRule number (shown line)) := by
  rw [readAlternative, if_neg (List.ne_nil_of_mem h), if_pos h]

/-- Only the words of the parts matter. -/
theorem mapM_readAlternative_congr {parts parts' : List (List Char)}
    (h : parts.map words = parts'.map words) (lhs : Symbol) :
    parts.mapM (readAlternative number line lhs) =
      parts'.mapM (readAlternative number line lhs) := by
  induction parts generalizing parts' with
  | nil =>
    obtain rfl : parts' = [] := by simpa using h.symm
    rfl
  | cons part parts ih =>
    cases parts' with
    | nil => simp at h
    | cons part' parts' =>
      obtain ⟨hpart, hparts⟩ := List.cons.inj h
      rw [List.mapM_cons, List.mapM_cons, ih hparts]
      simp only [readAlternative, hpart]

theorem solid_arrow : Solid arrow := solid_of_mem_words (s := arrow) (by decide)

theorem not_bar_of_isBlank {c : Char} (h : isBlank c = true) : decide (c = '|') = false := by
  refine decide_eq_false ?_
  rintro rfl
  cases h

/-- A rule is read by its two sides, the right one cut at every bar. -/
theorem readRule_of_sides {text : List Char} (h : Sides arrow line lhs text) :
    readRule number line =
      (text.splitOn '|').mapM (readAlternative number line (String.ofList lhs)) := by
  obtain ⟨third, ws, hwords⟩ := h.words_eq solid_arrow
  obtain ⟨before, after, hbefore, hafter, -, -, hrest⟩ := h.afterWord_eq solid_arrow
  have hsplit : text.splitOn '|' = text.splitOnP (· = '|') := List.splitOn_eq_splitOnP
  have hparts : ((before ++ (text ++ after)).splitOnP (· = '|')).map words =
      (text.splitOn '|').map words := by
    rw [hsplit,
      map_words_splitOnP_blanks_append hbefore fun c hc => not_bar_of_isBlank (hbefore c hc),
      map_words_splitOnP_append_blanks hafter fun c hc => not_bar_of_isBlank (hafter c hc)]
  simp only [readRule, hwords, if_true, hrest]
  exact mapM_readAlternative_congr hparts _

/-- A line without two sides around an arrow is no rule. -/
theorem readRule_of_no_sides (h : ∀ lhs text, ¬ Sides arrow line lhs text) :
    readRule number line = .error (.malformedRule number (shown line)) := by
  rw [readRule]
  split
  · next hwords =>
    refine if_neg ?_
    rintro rfl
    exact h _ _ (sides_of_words hwords)
  · rfl

theorem readRule_of_no_text {first : List Char} {ws : List (List Char)}
    (h : words line = first :: ws) (hws : ∀ third rest, ws ≠ arrow :: third :: rest) :
    readRule number line = .error (.malformedRule number (shown line)) := by
  refine readRule_of_no_sides fun lhs text hsides => ?_
  obtain ⟨third, rest, hwords⟩ := hsides.words_eq solid_arrow
  exact hws third rest (List.cons.inj (h.symm.trans hwords)).2

/-- Reading a rule goes by the only two sides that the line has, or fails. -/
theorem readRule_cases (number : Nat) (line : List Char) :
    (∃ lhs text, (∀ left right, Sides arrow line left right ↔ left = lhs ∧ right = text) ∧
      readRule number line =
        (text.splitOn '|').mapM (readAlternative number line (String.ofList lhs))) ∨
    (∀ left right, ¬ Sides arrow line left right) ∧
      readRule number line = .error (.malformedRule number (shown line)) := by
  by_cases h : ∃ lhs text, Sides arrow line lhs text
  · obtain ⟨lhs, text, hsides⟩ := h
    refine .inl ⟨lhs, text, fun left right => ⟨hsides.unique solid_arrow, ?_⟩,
      readRule_of_sides hsides⟩
    rintro ⟨rfl, rfl⟩
    exact hsides
  · have hnone : ∀ lhs text, ¬ Sides arrow line lhs text :=
      fun lhs text hsides => h ⟨lhs, text, hsides⟩
    exact .inr ⟨hnone, readRule_of_no_sides hnone⟩

/-- The blanks at the end of the line may be read with the right side. -/
theorem readRule_of_fromThird {text : List Char} (h : FromThird lhs arrow line text) :
    readRule number line =
      (text.splitOn '|').mapM (readAlternative number line (String.ofList lhs)) := by
  obtain ⟨right, after, hafter, rfl, hsides⟩ := h.sides
  have hsplit : ∀ s : List Char, s.splitOn '|' = s.splitOnP (· = '|') :=
    fun _ => List.splitOn_eq_splitOnP
  rw [readRule_of_sides hsides, hsplit, hsplit]
  refine mapM_readAlternative_congr (Eq.symm ?_) _
  exact map_words_splitOnP_append_blanks hafter (fun c hc => not_bar_of_isBlank (hafter c hc)) right

theorem exists_first_not {α : Type} {p : α → Prop} {xs : List α} (h : ¬ ∀ x ∈ xs, p x) :
    ∃ front x back, xs = front ++ x :: back ∧ (∀ y ∈ front, p y) ∧ ¬ p x := by
  induction xs with
  | nil => simp at h
  | cons x xs ih =>
    by_cases hx : p x
    · have hrest : ¬ ∀ y ∈ xs, p y := fun hall => h (List.forall_mem_cons.mpr ⟨hx, hall⟩)
      obtain ⟨front, y, back, rfl, hfront, hy⟩ := ih hrest
      exact ⟨x :: front, y, back, rfl, List.forall_mem_cons.mpr ⟨hx, hfront⟩, hy⟩
    · exact ⟨[], x, xs, rfl, by simp, hx⟩

section MapM

variable {α β ε : Type} {f : α → Except ε β} {g : α → β}

theorem mapM_eq_ok {xs : List α} (h : ∀ x ∈ xs, f x = .ok (g x)) : xs.mapM f = .ok (xs.map g) := by
  induction xs with
  | nil => rfl
  | cons x xs ih =>
    rw [List.forall_mem_cons] at h
    rw [List.mapM_cons, h.1, ih h.2]
    rfl

theorem mapM_eq_error {front back : List α} {x : α} {e : ε} (h : ∀ y ∈ front, f y = .ok (g y))
    (hx : f x = .error e) : (front ++ x :: back).mapM f = .error e := by
  induction front with
  | nil =>
    rw [List.nil_append, List.mapM_cons, hx]
    rfl
  | cons y front ih =>
    rw [List.forall_mem_cons] at h
    rw [List.cons_append, List.mapM_cons, h.1, ih h.2]
    rfl

end MapM

end Definition

namespace Statement

open Definition

/-- What a line says. -/
inductive Says (line : List Char) : Statement → Prop
  | blank (h : words line = []) : Says line .nothing
  | comment {rest : List Char} {ws : List (List Char)} (h : words line = ('#' :: rest) :: ws) :
      Says line .nothing
  | start {symbol : List Char} {ws : List (List Char)}
      (h : words line = startWord :: symbol :: ws) :
      Says line (.start (String.ofList symbol))
  | rule {lhs text : List Char} (hlhs : OpensRule lhs) (htext : FromThird lhs arrow line text)
      (hparts : ∀ part ∈ text.splitOn '|', IsAlternative part) :
      Says line (.rule ((text.splitOn '|').map (alternative lhs)))

/-- What is wrong with a line. Of the alternatives the leftmost that is none counts. -/
inductive Faulty (number : Nat) (line : List Char) : DefinitionError → Prop
  | bareStart (h : words line = [startWord]) : Faulty number line (.missingStart number)
  | noArrow {lhs : List Char} {ws : List (List Char)} (hlhs : OpensRule lhs)
      (h : words line = lhs :: ws) (harrow : ws.head? ≠ some arrow) :
      Faulty number line (.malformedRule number (shown line))
  | noText {lhs : List Char} (hlhs : OpensRule lhs) (h : words line = [lhs, arrow]) :
      Faulty number line (.malformedRule number (shown line))
  | empty {lhs text part : List Char} {front back : List (List Char)} (hlhs : OpensRule lhs)
      (htext : FromThird lhs arrow line text) (hcut : text.splitOn '|' = front ++ part :: back)
      (hfront : ∀ p ∈ front, IsAlternative p) (hpart : words part = []) :
      Faulty number line (.emptyAlternative number (shown line))
  | arrow {lhs text part : List Char} {front back : List (List Char)} (hlhs : OpensRule lhs)
      (htext : FromThird lhs arrow line text) (hcut : text.splitOn '|' = front ++ part :: back)
      (hfront : ∀ p ∈ front, IsAlternative p) (hpart : Definition.arrow ∈ words part) :
      Faulty number line (.malformedRule number (shown line))

variable {number : Nat} {line : List Char}

theorem head?_startWord : startWord.head? ≠ some '#' := by decide

theorem read_of_opensRule {lhs : List Char} {ws : List (List Char)} (h : words line = lhs :: ws)
    (hlhs : OpensRule lhs) : read number line = (readRule number line).map .rule := by
  simp only [read, h, if_neg hlhs.1, if_neg hlhs.2]

theorem read_of_fromThird {lhs text : List Char} (h : FromThird lhs arrow line text)
    (hlhs : OpensRule lhs) :
    read number line =
      ((text.splitOn '|').mapM (readAlternative number line (String.ofList lhs))).map .rule := by
  obtain ⟨third, ws, -, hwords⟩ := h.words_eq
  rw [read_of_opensRule hwords hlhs, readRule_of_fromThird h]

theorem Says.read_eq {s : Statement} (h : Says line s) : read number line = .ok s := by
  cases h with
  | blank h => simp only [read, h]
  | comment h => simp [read, h]
  | start h => simp only [read, h, if_neg head?_startWord, if_true]
  | rule hlhs htext hparts =>
    rw [read_of_fromThird htext hlhs,
      mapM_eq_ok fun part hpart => readAlternative_of_isAlternative (hparts part hpart)]
    rfl

theorem Faulty.read_eq {e : DefinitionError} (h : Faulty number line e) :
    read number line = .error e := by
  cases h with
  | bareStart h => simp only [read, h, if_neg head?_startWord, if_true]
  | @noArrow lhs ws hlhs h harrow =>
    have hnone : ∀ third rest, ws ≠ Definition.arrow :: third :: rest := by
      rintro third rest rfl
      exact harrow rfl
    rw [read_of_opensRule h hlhs, readRule_of_no_text h hnone]
    rfl
  | noText hlhs h =>
    rw [read_of_opensRule h hlhs, readRule_of_no_text h (by simp)]
    rfl
  | empty hlhs htext hcut hfront hpart =>
    rw [read_of_fromThird htext hlhs, hcut, mapM_eq_error
      (fun p hp => readAlternative_of_isAlternative (hfront p hp)) (readAlternative_of_empty hpart)]
    rfl
  | arrow hlhs htext hcut hfront hpart =>
    rw [read_of_fromThird htext hlhs, hcut, mapM_eq_error
      (fun p hp => readAlternative_of_isAlternative (hfront p hp)) (readAlternative_of_arrow hpart)]
    rfl

/-- Every line says something or has a fault. -/
theorem says_or_faulty (number : Nat) (line : List Char) :
    (∃ s, Says line s) ∨ ∃ e, Faulty number line e := by
  match hwords : words line with
  | [] => exact .inl ⟨_, .blank hwords⟩
  | first :: ws =>
    by_cases hcomment : first.head? = some '#'
    · obtain ⟨rest, rfl⟩ := List.head?_eq_some_iff.mp hcomment
      exact .inl ⟨_, .comment hwords⟩
    by_cases hstart : first = startWord
    · subst hstart
      cases ws with
      | nil => exact .inr ⟨_, .bareStart hwords⟩
      | cons symbol ws => exact .inl ⟨_, .start hwords⟩
    have hlhs : OpensRule first := ⟨hcomment, hstart⟩
    by_cases harrow : ws.head? = some arrow
    case neg => exact .inr ⟨_, .noArrow hlhs hwords harrow⟩
    obtain ⟨ws, rfl⟩ := List.head?_eq_some_iff.mp harrow
    cases ws with
    | nil => exact .inr ⟨_, .noText hlhs hwords⟩
    | cons third ws =>
      obtain ⟨text, htext⟩ := exists_fromThird hwords
      by_cases hparts : ∀ part ∈ text.splitOn '|', IsAlternative part
      · exact .inl ⟨_, .rule hlhs htext hparts⟩
      obtain ⟨front, part, back, hcut, hfront, hpart⟩ := exists_first_not hparts
      by_cases hempty : words part = []
      · exact .inr ⟨_, .empty hlhs htext hcut hfront hempty⟩
      · have hmem : arrow ∈ words part := by
          by_contra hno
          exact hpart ⟨hempty, hno⟩
        exact .inr ⟨_, .arrow hlhs htext hcut hfront hmem⟩

theorem read_eq_error_iff {e : DefinitionError} :
    read number line = .error e ↔ Faulty number line e := by
  refine ⟨fun h => ?_, Faulty.read_eq⟩
  obtain ⟨s, hs⟩ | ⟨e', he⟩ := says_or_faulty number line
  · cases h.symm.trans hs.read_eq
  · obtain rfl := Except.error.inj (h.symm.trans he.read_eq)
    exact he

/-- A line has a fault exactly when it says nothing that a definition can say. -/
theorem exists_faulty_iff : (∃ e, Faulty number line e) ↔ ¬ ∃ s, Says line s := by
  constructor
  · rintro ⟨e, he⟩ ⟨s, hs⟩
    cases he.read_eq.symm.trans hs.read_eq
  · exact (says_or_faulty number line).resolve_left

theorem readAll_cons {s : Statement} (h : Says line s) (rest : List (List Char)) :
    readAll number (line :: rest) = (readAll (number + 1) rest).map (s :: ·) := by
  rw [readAll, h.read_eq]

/-- Reading lines succeeds with what they say. -/
theorem readAll_eq_ok_iff {ls : List (List Char)} {ss : List Statement} :
    readAll number ls = .ok ss ↔ List.Forall₂ Says ls ss := by
  induction ls generalizing number ss with
  | nil => simp [readAll, eq_comm]
  | cons line rest ih =>
    constructor
    · intro h
      obtain ⟨s, hs⟩ | ⟨e, he⟩ := says_or_faulty number line
      · rw [readAll_cons hs] at h
        obtain ⟨ss, hrest, rfl⟩ := exists_of_map_eq_ok h
        exact .cons hs (ih.mp hrest)
      · rw [readAll, he.read_eq] at h
        cases h
    · rintro (_ | ⟨hs, hrest⟩)
      rw [readAll_cons hs, ih.mpr hrest]
      rfl

/-- Reading lines fails with the fault of the first faulty one. -/
theorem readAll_eq_error_iff {ls : List (List Char)} {e : DefinitionError} :
    readAll number ls = .error e ↔ ∃ front line back, ls = front ++ line :: back ∧
      (∀ l ∈ front, ∃ s, Says l s) ∧ Faulty (number + front.length) line e := by
  constructor
  · intro h
    induction ls generalizing number with
    | nil => cases h
    | cons line rest ih =>
      obtain ⟨s, hs⟩ | ⟨e', he⟩ := says_or_faulty number line
      · rw [readAll_cons hs] at h
        cases hrest : readAll (number + 1) rest with
        | ok ss =>
          rw [hrest] at h
          cases h
        | error e' =>
          rw [hrest] at h
          obtain rfl := Except.error.inj h
          obtain ⟨front, bad, back, rfl, hfront, hbad⟩ := ih hrest
          refine ⟨line :: front, bad, back, rfl, List.forall_mem_cons.mpr ⟨⟨s, hs⟩, hfront⟩, ?_⟩
          rwa [List.length_cons, Nat.add_comm front.length 1, ← Nat.add_assoc]
      · rw [readAll, he.read_eq] at h
        obtain rfl := Except.error.inj h
        exact ⟨[], line, rest, rfl, by simp, he⟩
  · rintro ⟨front, line, back, rfl, hfront, hline⟩
    induction front generalizing number with
    | nil =>
      rw [List.length_nil, Nat.add_zero] at hline
      rw [List.nil_append, readAll, hline.read_eq]
    | cons l front ih =>
      rw [List.forall_mem_cons] at hfront
      obtain ⟨⟨s, hs⟩, hfront⟩ := hfront
      rw [List.length_cons, Nat.add_comm front.length 1, ← Nat.add_assoc] at hline
      rw [List.cons_append, readAll_cons hs, ih hfront hline]
      rfl

/-- A rule has an alternative. -/
theorem Says.productions_ne_nil {s : Statement} (h : Says line s) :
    s.productions ≠ [] ↔ ∃ ps, s = .rule ps := by
  cases h with
  | rule => simp [productions, List.splitOn_ne_nil]
  | _ => simp [productions]

end Statement

open Statement

namespace Grammar

theorem build_eq_ok_iff {start : Symbol} {ps : List Production} {g : Grammar} :
    build start ps = .ok g ↔ ps ≠ [] ∧ g = ofProductions start ps := by
  cases ps <;> simp [build, eq_comm]

/-- Loading succeeds when there is a production, with the last start symbol that is named, or else
with the left-hand side of the first production. -/
theorem load_of_statements {text : String} {ss : List Statement}
    (h : readAll 1 (lines text.toList) = .ok ss) (hne : ss.flatMap Statement.productions ≠ []) :
    ∃ start,
      (ss.filterMap start?).getLast?.or
        ((ss.flatMap Statement.productions).head?.map Production.lhs) = some start ∧
      load text = .ok (ofProductions start (ss.flatMap Statement.productions)) := by
  obtain ⟨p, ps, hps⟩ := List.exists_cons_of_ne_nil hne
  obtain ⟨start, hstart⟩ : ∃ start, (Definition.ofStatements ss).startSymbol = some start := by
    rw [← Option.isSome_iff_exists, Definition.startSymbol, Definition.ofStatements, hps]
    simp
  have hread : Definition.read text = .ok (Definition.ofStatements ss) := by
    rw [Definition.read, h]
    rfl
  refine ⟨start, hstart, ?_⟩
  simp only [load, hread, hstart]
  exact build_eq_ok_iff.mpr ⟨hne, rfl⟩

theorem load_of_no_rule {text : String} {ss : List Statement}
    (h : readAll 1 (lines text.toList) = .ok ss) (hnone : ss.flatMap Statement.productions = []) :
    load text = .error .noProductions := by
  have hread : Definition.read text = .ok (Definition.ofStatements ss) := by
    rw [Definition.read, h]
    rfl
  have hproductions : (Definition.ofStatements ss).productions = [] := hnone
  simp only [load, hread]
  split
  · rfl
  · rw [hproductions]
    rfl

theorem load_of_error {text : String} {e : DefinitionError}
    (h : readAll 1 (lines text.toList) = .error e) :
    load text = .error e := by
  rw [load, Definition.read, h]
  rfl

end Grammar

theorem exists_says_of_mem {ls : List (List Char)} {ss : List Statement}
    (h : List.Forall₂ Says ls ss) :
    ∀ l ∈ ls, ∃ s, Says l s :=
  ((List.forall₂_and_left ls ss).mp (h.imp fun _ _ hs => ⟨⟨_, hs⟩, hs⟩)).1

/-- There is a production when there is a rule. -/
theorem exists_rule_iff {ls : List (List Char)} {ss : List Statement}
    (h : List.Forall₂ Says ls ss) :
    (∃ ps, .rule ps ∈ ss) ↔ ss.flatMap Statement.productions ≠ [] := by
  induction h with
  | nil => simp
  | @cons line s ls ss hs _ ih =>
    have hrule : (∃ ps, .rule ps = s) ↔ s.productions ≠ [] := by
      rw [hs.productions_ne_nil]
      exact exists_congr fun ps => eq_comm
    simp only [List.mem_cons, exists_or, hrule, ih, List.flatMap_cons, ne_eq,
      List.append_eq_nil_iff, not_and_or]

/-- A text has one division into lines. It loads when each of its lines says something and one of
them is a rule. The grammar has the productions of all rules in their order, each once, and starts
with the last symbol that a line names for this, or else with the left-hand side of the first rule.
Any other text has a line that says nothing, and the first such line is reported with its number and
its fault, or it has no rule. -/
theorem load_format (text : String) : ∃ ls, (∀ ls', Lined text.toList ls' ↔ ls' = ls) ∧
    (∀ number line, (∃ e, Faulty number line e) ↔ ¬ ∃ s, Says line s) ∧
    (∀ e, Grammar.load text = .error e ↔
      (∃ front line back, ls = front ++ line :: back ∧ (∀ l ∈ front, ∃ s, Says l s) ∧
        Faulty (front.length + 1) line e) ∨
      ∃ ss, List.Forall₂ Says ls ss ∧ (¬ ∃ ps, .rule ps ∈ ss) ∧ e = .noProductions) ∧
    ∀ g, Grammar.load text = .ok g ↔ ∃ ss, List.Forall₂ Says ls ss ∧ (∃ ps, .rule ps ∈ ss) ∧
      g.productions = (ss.flatMap Statement.productions).eraseDups ∧
      some g.start = (ss.filterMap start?).getLast?.or
        ((ss.flatMap Statement.productions).head?.map Production.lhs) := by
  have hlined : ∀ ls', Lined text.toList ls' ↔ ls' = lines text.toList := by
    intro ls'
    rw [← lines_eq_iff, eq_comm]
  refine ⟨lines text.toList, hlined, fun _ _ => exists_faulty_iff, ?_⟩
  have hfirst : ∀ e, readAll 1 (lines text.toList) = .error e ↔ ∃ front line back,
      lines text.toList = front ++ line :: back ∧ (∀ l ∈ front, ∃ s, Says l s) ∧
        Faulty (front.length + 1) line e := by
    intro e
    simp only [readAll_eq_error_iff, Nat.add_comm]
  simp only [← hfirst]
  cases hall : readAll 1 (lines text.toList) with
  | error e' =>
    have hnone : ∀ ss, ¬ List.Forall₂ Says (lines text.toList) ss := by
      intro ss hss
      cases hall.symm.trans (readAll_eq_ok_iff.mpr hss)
    simp [Grammar.load_of_error hall, hnone]
  | ok ss =>
    have hss := readAll_eq_ok_iff.mp hall
    have hunique : ∀ ss', List.Forall₂ Says (lines text.toList) ss' ↔ ss' = ss := by
      intro ss'
      rw [← @readAll_eq_ok_iff 1, hall, Except.ok.injEq, eq_comm]
    simp only [hunique, exists_eq_left, exists_rule_iff hss, reduceCtorEq, false_or]
    by_cases hne : ss.flatMap Statement.productions = []
    · simp [Grammar.load_of_no_rule hall hne, hne, eq_comm]
    · obtain ⟨start, hstart, hload⟩ := Grammar.load_of_statements hall hne
      have hok : ∀ g : Grammar, Grammar.ofProductions start (ss.flatMap Statement.productions) = g ↔
          g.productions = (ss.flatMap Statement.productions).eraseDups ∧
            some g.start = some start := by
        intro g
        rw [Option.some_inj]
        constructor
        · rintro rfl
          exact ⟨rfl, rfl⟩
        · rintro ⟨hproductions, hs⟩
          exact Grammar.ext_start_productions hs.symm hproductions.symm
      refine ⟨fun e => by simp [hload, hne], fun g => ?_⟩
      rw [hload, Except.ok.injEq, hok, hstart, and_iff_right hne]

/-- An arrow and a bar in words on the left, and a carriage return inside a line. With two more
lines the text has three faults, of which an empty part in front of an arrow is the first. -/
theorem load_format_marks :
    let text := "-> -> A|\"b\u2003c\"\r\n\t#->\n\n%start \rS|-> x"
    let ls := ["-> -> A|\"b\u2003c\"", "\t#->", "", "%start \rS|-> x"].map String.toList
    let ss := [.rule [⟨"->", ["A"]⟩, ⟨"->", ["\"b", "c\""]⟩], .nothing, .nothing, .start "S|->"]
    let spoiled := text ++ "\r\nA -> b| |->\n%start"
    let line := "A -> b| |->".toList
    let last := "%start".toList
    (Lined text.toList ls ∧ List.Forall₂ Says ls ss ∧
      Grammar.load text = .ok (.ofProductions "S|->" [⟨"->", ["A"]⟩, ⟨"->", ["\"b", "c\""]⟩])) ∧
    Lined spoiled.toList (ls ++ [line, last]) ∧ Faulty 5 line (.emptyAlternative 5 "A -> b| |->") ∧
      Faulty 6 last (.missingStart 6) ∧
        Grammar.load spoiled = .error (.emptyAlternative 5 "A -> b| |->") := by
  intro text ls ss spoiled line last
  have hlined : Lined text.toList ls := lines_eq_iff.mp (by decide +kernel)
  have hspoiled : Lined spoiled.toList (ls ++ [line, last]) := lines_eq_iff.mp (by decide +kernel)
  have hlines : List.Forall₂ Says ls ss := (@readAll_eq_ok_iff 1).mp (by decide +kernel)
  have hfaulty : Faulty 5 line (.emptyAlternative 5 "A -> b| |->") :=
    read_eq_error_iff.mp (by decide +kernel)
  have hlast : Faulty 6 last (.missingStart 6) := read_eq_error_iff.mp (by decide +kernel)
  obtain ⟨ls', hunique, -, -, hok⟩ := load_format text
  obtain rfl := (hunique ls).mp hlined
  obtain ⟨ls', hunique', -, herror, -⟩ := load_format spoiled
  obtain rfl := (hunique' _).mp hspoiled
  exact ⟨⟨hlined, hlines,
    (hok _).mpr ⟨ss, hlines, ⟨_, List.mem_cons_self⟩, by decide +kernel, by decide +kernel⟩⟩,
    hspoiled, hfaulty, hlast,
    (herror _).mpr (.inl ⟨ls, line, [last], rfl, exists_says_of_mem hlines, hfaulty⟩)⟩

end Constituency
