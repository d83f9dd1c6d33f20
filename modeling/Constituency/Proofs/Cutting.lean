import Mathlib.Data.List.DropRight
import Mathlib.Data.List.TakeWhile
import Constituency.Grammar.Definition

/-!
Where a text is cut. Its lines are the stretches up to the line endings. The text of a line from its
third word on is what stands after a front with two words and a blank, and skipping two words of the
line leads to it. It is the right side of the second word, with the blanks that end the line.
-/
namespace Constituency.Text

/-- The lines of a text. A line ends at a line feed, or at a carriage return and the line feed
behind it. The last line ends with the text, and has at least one character. -/
inductive Lined : List Char → List (List Char) → Prop
  | nil : Lined [] []
  | last {s : List Char} (hne : s ≠ []) (hfeed : '\n' ∉ s) : Lined s [s]
  | feed {s t : List Char} {ls : List (List Char)} (hfeed : '\n' ∉ s)
      (hreturn : s.getLast? ≠ some '\r') (ht : Lined t ls) : Lined (s ++ '\n' :: t) (s :: ls)
  | returnFeed {s t : List Char} {ls : List (List Char)} (hfeed : '\n' ∉ s) (ht : Lined t ls) :
      Lined (s ++ '\r' :: '\n' :: t) (s :: ls)

theorem lines_of_no_feed {s : List Char} (hne : s ≠ []) (hfeed : '\n' ∉ s) : lines s = [s] := by
  have hone : s.splitOnP (· = '\n') = [s] :=
    List.splitOnP_eq_singleton fun c hc => decide_eq_false fun h => hfeed (h ▸ hc)
  rw [lines, linesWith, hone, linesOfStretches, if_neg (by simpa using hne)]

theorem Lined.lines_eq {s : List Char} {ls : List (List Char)} (h : Lined s ls) : lines s = ls := by
  induction h with
  | nil => rfl
  | last hne hfeed => exact lines_of_no_feed hne hfeed
  | feed hfeed hreturn _ ih =>
    rw [lines, linesWith_append_cons '\r' hfeed, dropTrailing, if_neg hreturn, ← ih, lines]
  | @returnFeed s t ls hfeed _ ih =>
    have hfeed' : '\n' ∉ s ++ ['\r'] := by simpa using hfeed
    have hassoc : s ++ '\r' :: '\n' :: t = (s ++ ['\r']) ++ '\n' :: t := by simp
    rw [hassoc, lines, linesWith_append_cons '\r' hfeed', dropTrailing, if_pos (by simp),
      ← ih, lines, List.dropLast_concat]

theorem lined_lines (s : List Char) : Lined s (lines s) := by
  induction hn : s.length using Nat.strongRecOn generalizing s with
  | ind n ih =>
    by_cases hfeed : '\n' ∈ s
    · obtain ⟨front, t, rfl, hfront⟩ := List.eq_append_cons_of_mem hfeed
      have ht : Lined t (lines t) := ih t.length (by simp [← hn]; omega) t rfl
      by_cases hreturn : front.getLast? = some '\r'
      · obtain ⟨s, rfl⟩ := List.getLast?_eq_some_iff.mp hreturn
        have hs : '\n' ∉ s := fun hm => hfront (List.mem_append_left _ hm)
        have hassoc : (s ++ ['\r']) ++ '\n' :: t = s ++ '\r' :: '\n' :: t := by simp
        have hlined := Lined.returnFeed hs ht
        rw [hassoc, hlined.lines_eq]
        exact hlined
      · have hlined := Lined.feed hfront hreturn ht
        rw [hlined.lines_eq]
        exact hlined
    · by_cases hne : s = []
      · subst hne
        exact .nil
      · rw [lines_of_no_feed hne hfeed]
        exact .last hne hfeed

theorem lines_eq_iff {s : List Char} {ls : List (List Char)} : lines s = ls ↔ Lined s ls :=
  ⟨fun h => h ▸ lined_lines s, Lined.lines_eq⟩

theorem mem_splitOnP {α : Type} {p : α → Bool} {s w : List α} (h : w ∈ s.splitOnP p) :
    ∀ c ∈ w, c ∈ s ∧ p c = false := by
  induction s generalizing w with
  | nil =>
    intro c hc
    rw [List.splitOnP_nil, List.mem_singleton] at h
    rw [h] at hc
    cases hc
  | cons x xs ih =>
    intro c hc
    rw [List.splitOnP_cons_eq_if_modifyHead] at h
    split at h
    · obtain rfl | h := List.mem_cons.mp h
      · cases hc
      · exact (ih h c hc).imp_left (List.mem_cons_of_mem _)
    · next hx =>
      obtain ⟨r, rs, hr⟩ := List.exists_cons_of_ne_nil (List.splitOnP_ne_nil p xs)
      rw [hr, List.modifyHead_cons] at h
      have hhead : ∀ c ∈ r, c ∈ xs ∧ p c = false := ih (by rw [hr]; exact List.mem_cons_self)
      obtain rfl | h := List.mem_cons.mp h
      · obtain rfl | hc := List.mem_cons.mp hc
        · exact ⟨List.mem_cons_self, by simpa using hx⟩
        · exact (hhead c hc).imp_left (List.mem_cons_of_mem _)
      · have hrest := ih (by rw [hr]; exact List.mem_cons_of_mem _ h) c hc
        exact hrest.imp_left (List.mem_cons_of_mem _)

/-- A text has no words when it is blank. -/
theorem words_eq_nil_iff {s : List Char} : words s = [] ↔ ∀ c ∈ s, isBlank c = true := by
  induction s with
  | nil => simp
  | cons c s ih =>
    cases hc : isBlank c with
    | true =>
      have hskip : words (c :: s) = words s := words_append_blank hc [] s
      simp [hskip, ih, hc]
    | false =>
      obtain ⟨w, ws, hw⟩ := List.exists_cons_of_ne_nil (List.splitOnP_ne_nil isBlank s)
      simp [words, List.splitOnP_cons_eq_if_modifyHead, hc, hw]

theorem words_ne_nil_of_mem {s : List Char} {c : Char} (hm : c ∈ s) (hc : isBlank c = false) :
    words s ≠ [] := by
  rw [ne_eq, words_eq_nil_iff]
  intro hall
  rw [hall c hm] at hc
  cases hc

/-- The characters of a word are in the text and are no blanks. -/
theorem mem_of_mem_words {s w : List Char} (h : w ∈ words s) : ∀ c ∈ w, c ∈ s ∧ isBlank c = false :=
  mem_splitOnP (List.mem_filter.mp h).1

theorem words_append_of_blanks {s : List Char} (h : ∀ c ∈ s, isBlank c = true) (t : List Char) :
    words (s ++ t) = words t := by
  induction s with
  | nil => rfl
  | cons c s ih =>
    rw [List.forall_mem_cons] at h
    have hskip : words (c :: (s ++ t)) = words (s ++ t) := words_append_blank h.1 [] (s ++ t)
    rw [List.cons_append, hskip, ih h.2]

theorem mem_head?_dropWhile {α : Type} {p : α → Bool} {l : List α} {c : α}
    (h : c ∈ (l.dropWhile p).head?) :
    p c = false := by
  have hnot := List.head?_dropWhile_not p l
  rwa [Option.mem_def.mp h] at hnot

/-- A word that ends where a blank or nothing follows is the first word. -/
theorem words_append_of_head {v t : List Char} (hne : v ≠ []) (hv : ∀ c ∈ v, isBlank c = false)
    (ht : ∀ c ∈ t.head?, isBlank c = true) : words (v ++ t) = v :: words t := by
  cases t with
  | nil => rw [List.append_nil, words_eq_singleton hne hv, words_nil]
  | cons c t =>
    have hblank : isBlank c = true := ht c rfl
    have hskip : words (c :: t) = words t := words_append_blank hblank [] t
    rw [words_append_blank hblank, words_eq_singleton hne hv, hskip, List.singleton_append]

/-- A text with words is its first word, between blanks and a rest that does not go on with the
word. -/
theorem eq_append_afterWord {s w : List Char} {ws : List (List Char)} (h : words s = w :: ws) :
    ∃ blanks, (∀ c ∈ blanks, isBlank c = true) ∧ s = blanks ++ (w ++ afterWord s) ∧
      words (afterWord s) = ws ∧ ∀ c ∈ (afterWord s).head?, isBlank c = true := by
  have hblanks : ∀ c ∈ s.takeWhile isBlank, isBlank c = true :=
    fun c hc => List.mem_takeWhile_imp hc
  have hrest : ∀ c ∈ (afterWord s).head?, isBlank c = true := by
    intro c hc
    simpa using mem_head?_dropWhile hc
  generalize hv : ((s.dropWhile isBlank).takeWhile fun c => !isBlank c) = v
  have hcore : s.dropWhile isBlank = v ++ afterWord s := by
    rw [afterWord, ← hv, List.takeWhile_append_dropWhile]
  have hs : s = s.takeWhile isBlank ++ (v ++ afterWord s) := by
    rw [← hcore, List.takeWhile_append_dropWhile]
  have hwords : words (v ++ afterWord s) = w :: ws := by
    rw [← words_append_of_blanks hblanks, ← hs, h]
  have hnone : ∀ c ∈ v, isBlank c = false := by
    intro c hc
    rw [← hv] at hc
    simpa using List.mem_takeWhile_imp hc
  have hne : v ≠ [] := by
    rintro rfl
    rw [List.nil_append] at hcore hwords
    -- the rest starts with a blank, but what is left of the text after its first blanks does not
    obtain ⟨c, t, hcase⟩ : ∃ c t, afterWord s = c :: t := by
      refine List.exists_cons_of_ne_nil fun hnil => ?_
      rw [hnil] at hwords
      cases hwords
    have hhead : c ∈ (s.dropWhile isBlank).head? := by rw [hcore, hcase]; rfl
    have hblank : isBlank c = true := hrest c (by rw [hcase]; rfl)
    rw [mem_head?_dropWhile hhead] at hblank
    cases hblank
  rw [words_append_of_head hne hnone hrest] at hwords
  obtain ⟨rfl, rfl⟩ := List.cons.inj hwords
  exact ⟨_, hblanks, hs, rfl, hrest⟩

theorem afterWord_append {s : List Char} (h : words s ≠ []) {b : Char} (hb : isBlank b = true)
    (t : List Char) :
    afterWord (s ++ b :: t) = afterWord s ++ b :: t := by
  have hcore : s.dropWhile isBlank ≠ [] := by
    rw [ne_eq, List.dropWhile_eq_nil_iff, ← words_eq_nil_iff]
    exact h
  rw [afterWord, List.dropWhile_append, if_neg (by simpa using hcore), List.dropWhile_append,
    afterWord]
  split
  · next hempty =>
    rw [List.isEmpty_iff.mp hempty, List.dropWhile_cons_of_neg (by simpa using hb), List.nil_append]
  · rfl

theorem dropWhile_append_of_head {α : Type} {p : α → Bool} {s t : List α}
    (hs : ∀ x ∈ s, p x = true) (ht : ∀ x ∈ t.head?, p x = false) : (s ++ t).dropWhile p = t := by
  rw [List.dropWhile_append_of_pos hs]
  cases t with
  | nil => rfl
  | cons x t => exact List.dropWhile_cons_of_neg (by simp [ht x rfl])

/-- One character or more, none of them a blank. -/
def Solid (w : List Char) : Prop := w ≠ [] ∧ ∀ c ∈ w, isBlank c = false

/-- One blank or more, and nothing else. -/
def Gap (s : List Char) : Prop := s ≠ [] ∧ ∀ c ∈ s, isBlank c = true

theorem solid_of_mem_words {s w : List Char} (h : w ∈ words s) : Solid w :=
  ⟨ne_nil_of_mem_words h, fun c hc => (mem_of_mem_words h c hc).2⟩

theorem Solid.head {w : List Char} (h : Solid w) : ∃ c ∈ w.head?, isBlank c = false := by
  obtain ⟨c, rest, rfl⟩ := List.exists_cons_of_ne_nil h.1
  exact ⟨c, rfl, h.2 c List.mem_cons_self⟩

theorem Gap.head {s : List Char} (h : Gap s) (t : List Char) :
    ∀ c ∈ (s ++ t).head?, isBlank c = true := by
  rw [List.head?_append_of_ne_nil _ h.1]
  exact fun c hc => h.2 c (List.mem_of_mem_head? hc)

/-- Skipping the first word leaves what the blank behind it begins. -/
theorem afterWord_eq_of_word {before word rest : List Char}
    (hbefore : ∀ c ∈ before, isBlank c = true) (hword : Solid word)
    (hrest : ∀ c ∈ rest.head?, isBlank c = true) :
    afterWord (before ++ (word ++ rest)) = rest := by
  have hhead : ∀ c ∈ (word ++ rest).head?, isBlank c = false := by
    rw [List.head?_append_of_ne_nil _ hword.1]
    exact fun c hc => hword.2 c (List.mem_of_mem_head? hc)
  rw [afterWord, dropWhile_append_of_head hbefore hhead]
  exact dropWhile_append_of_head (by simpa using hword.2) (by simpa using hrest)

theorem trim_append {before text after : List Char} (hbefore : ∀ c ∈ before, isBlank c = true)
    (hhead : ∃ c ∈ text.head?, isBlank c = false) (hlast : ∃ c ∈ text.getLast?, isBlank c = false)
    (hafter : ∀ c ∈ after, isBlank c = true) : trim (before ++ (text ++ after)) = text := by
  obtain ⟨c, hc, hfirst⟩ := hhead
  obtain ⟨d, hd, hend⟩ := hlast
  have hcore : (before ++ (text ++ after)).dropWhile isBlank = text ++ after := by
    refine dropWhile_append_of_head hbefore ?_
    simp [Option.mem_def.mp hc, hfirst]
  have hback : (after.reverse ++ text.reverse).dropWhile isBlank = text.reverse := by
    refine dropWhile_append_of_head (by simpa using hafter) ?_
    simp [List.head?_reverse, Option.mem_def.mp hd, hend]
  rw [trim, hcore, List.reverse_append, hback, List.reverse_reverse]

/-- A text with words lies between the blanks at its ends. -/
theorem exists_eq_append_trim {s : List Char} (h : words s ≠ []) : ∃ before after,
    (∀ c ∈ before, isBlank c = true) ∧ (∀ c ∈ after, isBlank c = true) ∧
    (∃ c ∈ (trim s).head?, isBlank c = false) ∧ (∃ c ∈ (trim s).getLast?, isBlank c = false) ∧
    s = before ++ (trim s ++ after) := by
  have hcore : s.dropWhile isBlank ≠ [] := by
    rw [ne_eq, List.dropWhile_eq_nil_iff, ← words_eq_nil_iff]
    exact h
  obtain ⟨c, rest, hcons⟩ := List.exists_cons_of_ne_nil hcore
  have hc : isBlank c = false := mem_head?_dropWhile (l := s) (by rw [hcons]; rfl)
  have htrim : (s.dropWhile isBlank).rdropWhile isBlank = trim s := rfl
  have hcut : trim s ++ (s.dropWhile isBlank).rtakeWhile isBlank = c :: rest := by
    rw [← htrim, List.rdropWhile_append_rtakeWhile, hcons]
  have hne : trim s ≠ [] := by
    rw [← htrim, ne_eq, List.rdropWhile_eq_nil_iff, hcons]
    exact fun hall => by simp [hc] at hall
  have hhead : (trim s).head? = some c := by
    rw [← List.head?_append_of_ne_nil _ hne, hcut, List.head?_cons]
  have hlast : isBlank ((trim s).getLast hne) = false := by
    rw [← Bool.not_eq_true]
    exact List.rdropWhile_last_not isBlank (s.dropWhile isBlank) hne
  refine ⟨s.takeWhile isBlank, (s.dropWhile isBlank).rtakeWhile isBlank,
    fun c hc => List.mem_takeWhile_imp hc, fun c hc => List.mem_rtakeWhile_imp hc,
    ⟨c, hhead, hc⟩, ⟨_, List.getLast?_eq_some_getLast hne, hlast⟩, ?_⟩
  rw [hcut, ← hcons, List.takeWhile_append_dropWhile]

/-- Blanks that a blank begins, whatever stands behind them. -/
theorem gap_of_head {blanks text rest : List Char} (hblanks : ∀ c ∈ blanks, isBlank c = true)
    (htext : ∃ c ∈ text.head?, isBlank c = false)
    (hhead : ∀ c ∈ (blanks ++ (text ++ rest)).head?, isBlank c = true) : Gap blanks := by
  refine ⟨?_, hblanks⟩
  rintro rfl
  obtain ⟨c, hc, hnot⟩ := htext
  have hblank := hhead c (by simp [Option.mem_def.mp hc])
  rw [hnot] at hblank
  cases hblank

/-- The text of a line from its third word on: a front with two words and a blank stands before
it. -/
inductive FromThird (first second : List Char) : List Char → List Char → Prop
  | intro {front : List Char} {b c : Char} {rest : List Char}
      (hfront : words front = [first, second]) (hb : isBlank b = true) (hc : isBlank c = false) :
      FromThird first second (front ++ b :: c :: rest) (c :: rest)

namespace FromThird

variable {first second line text : List Char}

theorem words_eq (h : FromThird first second line text) :
    ∃ third ws, words text = third :: ws ∧ words line = first :: second :: third :: ws := by
  cases h with
  | @intro front b c rest hfront hb hc =>
    have hne : words (c :: rest) ≠ [] := words_ne_nil_of_mem List.mem_cons_self hc
    obtain ⟨third, ws, hthird⟩ := List.exists_cons_of_ne_nil hne
    exact ⟨third, ws, hthird, by rw [words_append_blank hb, hfront, hthird]; rfl⟩

theorem head (h : FromThird first second line text) : ∃ c ∈ text.head?, isBlank c = false := by
  cases h with
  | @intro _ _ c _ _ _ hc => exact ⟨c, rfl, hc⟩

/-- After the first two words, some blanks and this text are left. -/
theorem afterWord_eq (h : FromThird first second line text) :
    ∃ blanks, (∀ c ∈ blanks, isBlank c = true) ∧ afterWord (afterWord line) = blanks ++ text := by
  cases h with
  | @intro front b c rest hfront hb hc =>
    obtain ⟨-, -, -, hsecond, -⟩ := eq_append_afterWord hfront
    obtain ⟨-, -, -, hnone, -⟩ := eq_append_afterWord hsecond
    refine ⟨afterWord (afterWord front) ++ [b], ?_, ?_⟩
    · intro x hx
      obtain hx | hx := List.mem_append.mp hx
      · exact words_eq_nil_iff.mp hnone x hx
      · rwa [List.mem_singleton.mp hx]
    · rw [afterWord_append (by simp [hfront]) hb, afterWord_append (by simp [hsecond]) hb,
        List.append_assoc]
      rfl

end FromThird

/-- The two sides of a line with this word between them: a word on the left, and on the right a text
that begins and ends with characters other than blanks. There are blanks around the word between,
and there may be blanks at both ends of the line. With `->` between them these are the two captures
of the pattern `^\s*(\S+)\s+->\s+(\S.*?)\s*$`, for which every character of a line counts as a
dot. -/
inductive Sides (between : List Char) : List Char → List Char → List Char → Prop
  | intro {before left gap gap' right after : List Char} (hbefore : ∀ c ∈ before, isBlank c = true)
      (hleft : Solid left) (hgap : Gap gap) (hgap' : Gap gap')
      (hhead : ∃ c ∈ right.head?, isBlank c = false)
      (hlast : ∃ c ∈ right.getLast?, isBlank c = false) (hafter : ∀ c ∈ after, isBlank c = true) :
      Sides between
        (before ++ (left ++ (gap ++ (between ++ (gap' ++ (right ++ after)))))) left right

section Sides

variable {between line left right : List Char}

theorem Sides.words_eq (hbetween : Solid between) (h : Sides between line left right) :
    ∃ third ws, words line = left :: between :: third :: ws := by
  cases h with
  | @intro before _ gap gap' _ after hbefore hleft hgap hgap' hhead _ _ =>
    obtain ⟨c, hc, hnot⟩ := hhead
    have hne : words (right ++ after) ≠ [] :=
      words_ne_nil_of_mem (List.mem_append_left _ (List.mem_of_mem_head? hc)) hnot
    obtain ⟨third, ws, hthird⟩ := List.exists_cons_of_ne_nil hne
    refine ⟨third, ws, ?_⟩
    rw [words_append_of_blanks hbefore, words_append_of_head hleft.1 hleft.2 (hgap.head _),
      words_append_of_blanks hgap.2, words_append_of_head hbetween.1 hbetween.2 (hgap'.head _),
      words_append_of_blanks hgap'.2, hthird]

/-- Skipping two words of the line leads to the right side, between blanks. -/
theorem Sides.afterWord_eq (hbetween : Solid between) (h : Sides between line left right) :
    ∃ before after, (∀ c ∈ before, isBlank c = true) ∧ (∀ c ∈ after, isBlank c = true) ∧
    (∃ c ∈ right.head?, isBlank c = false) ∧ (∃ c ∈ right.getLast?, isBlank c = false) ∧
    afterWord (afterWord line) = before ++ (right ++ after) := by
  cases h with
  | @intro _ _ _ gap' _ after hbefore hleft hgap hgap' hhead hlast hafter =>
    refine ⟨gap', after, hgap'.2, hafter, hhead, hlast, ?_⟩
    rw [afterWord_eq_of_word hbefore hleft (hgap.head _),
      afterWord_eq_of_word hgap.2 hbetween (hgap'.head _)]

theorem Sides.right_eq (hbetween : Solid between) (h : Sides between line left right) :
    right = trim (afterWord (afterWord line)) := by
  obtain ⟨_, _, hbefore, hafter, hhead, hlast, hrest⟩ := h.afterWord_eq hbetween
  rw [hrest, trim_append hbefore hhead hlast hafter]

/-- A line has two sides in one way at most. -/
theorem Sides.unique (hbetween : Solid between) {left' right' : List Char}
    (h : Sides between line left right) (h' : Sides between line left' right') :
    left' = left ∧ right' = right := by
  obtain ⟨_, _, hwords⟩ := h.words_eq hbetween
  obtain ⟨_, _, hwords'⟩ := h'.words_eq hbetween
  exact ⟨(List.cons.inj (hwords'.symm.trans hwords)).1,
    (h'.right_eq hbetween).trans (h.right_eq hbetween).symm⟩

/-- A line with a third word has two sides with the second word between them. -/
theorem sides_of_words {third : List Char} {ws : List (List Char)}
    (h : words line = left :: between :: third :: ws) :
    Sides between line left (trim (afterWord (afterWord line))) := by
  obtain ⟨before, hbefore, hline, hsecond, hhead⟩ := eq_append_afterWord h
  obtain ⟨gap, hgap, hrest, hthird, hhead'⟩ := eq_append_afterWord hsecond
  obtain ⟨gap', after, hgap', hafter, hfirst, hlast, htext⟩ :=
    exists_eq_append_trim (s := afterWord (afterWord line)) (by simp [hthird])
  have hleft : Solid left := solid_of_mem_words (s := line) (by simp [h])
  have hbetween : Solid between := solid_of_mem_words (s := line) (by simp [h])
  generalize trim (afterWord (afterWord line)) = right at *
  rw [hrest] at hhead
  rw [htext] at hhead'
  rw [hline, hrest, htext]
  exact .intro hbefore hleft (gap_of_head hgap hbetween.head hhead)
    (gap_of_head hgap' hfirst hhead')
    hfirst hlast hafter

/-- What stands from the third word on is the right side and the blanks at the end of the line. -/
theorem Sides.fromThird (hbetween : Solid between) (h : Sides between line left right) :
    ∃ after, (∀ c ∈ after, isBlank c = true) ∧ FromThird left between line (right ++ after) := by
  cases h with
  | @intro before _ gap gap' _ after hbefore hleft hgap hgap' hhead _ hafter =>
    obtain ⟨init, b, rfl⟩ := (List.eq_nil_or_concat' gap').resolve_left hgap'.1
    obtain ⟨c, hc, hfirst⟩ := hhead
    obtain ⟨tail, rfl⟩ := List.head?_eq_some_iff.mp hc
    have hinit : ∀ x ∈ init, isBlank x = true := fun x hx => hgap'.2 x (List.mem_append_left _ hx)
    have hfront : words (before ++ (left ++ (gap ++ (between ++ init)))) = [left, between] := by
      rw [words_append_of_blanks hbefore, words_append_of_head hleft.1 hleft.2 (hgap.head _),
        words_append_of_blanks hgap.2,
        words_append_of_head hbetween.1 hbetween.2 fun x hx => hinit x (List.mem_of_mem_head? hx),
        words_eq_nil_iff.mpr hinit]
    have hcut : before ++ (left ++ (gap ++ (between ++ ((init ++ [b]) ++ (c :: tail ++ after))))) =
        (before ++ (left ++ (gap ++ (between ++ init)))) ++ b :: c :: (tail ++ after) := by simp
    refine ⟨after, hafter, ?_⟩
    rw [hcut]
    exact .intro hfront (hgap'.2 b List.mem_concat_self) hfirst

theorem FromThird.sides {text : List Char} (h : FromThird left between line text) : ∃ right after,
    (∀ c ∈ after, isBlank c = true) ∧ text = right ++ after ∧ Sides between line left right := by
  obtain ⟨third, ws, htext, hwords⟩ := h.words_eq
  obtain ⟨blanks, hblanks, hrest⟩ := h.afterWord_eq
  obtain ⟨before, after, hbefore, hafter, hfirst, hlast, hcut⟩ :=
    exists_eq_append_trim (s := text) (by simp [htext])
  generalize trim text = right at *
  have hnone : before = [] := by
    cases before with
    | nil => rfl
    | cons b before =>
      obtain ⟨c, hc, hnot⟩ := h.head
      obtain rfl : b = c := by simpa [hcut] using hc
      rw [hbefore b List.mem_cons_self] at hnot
      cases hnot
  rw [hnone, List.nil_append] at hcut
  have hsides := sides_of_words hwords
  rw [hrest, hcut, trim_append hblanks hfirst hlast hafter] at hsides
  exact ⟨right, after, hafter, hcut, hsides⟩

end Sides

/-- A line with a third word has a text from there on. -/
theorem exists_fromThird {line first second third : List Char} {ws : List (List Char)}
    (h : words line = first :: second :: third :: ws) :
    ∃ text, FromThird first second line text := by
  have hsecond : Solid second := solid_of_mem_words (s := line) (by simp [h])
  obtain ⟨after, -, htext⟩ := (sides_of_words h).fromThird hsecond
  exact ⟨_, htext⟩

theorem splitOnP_append {α : Type} {p : α → Bool} {front : List α} (h : ∀ x ∈ front, p x = false)
    (s : List α) :
    (front ++ s).splitOnP p = (s.splitOnP p).modifyHead (front ++ ·) := by
  induction front with
  | nil =>
    rw [List.nil_append]
    cases s.splitOnP p <;> rfl
  | cons x front ih =>
    rw [List.forall_mem_cons] at h
    rw [List.cons_append, List.splitOnP_cons_eq_if_modifyHead, h.1, ih h.2]
    simp [List.modifyHead_modifyHead, Function.comp_def]

section Blanks

variable {p : Char → Bool} {blanks : List Char}

/-- Blanks in front of a text make no difference to the words of its parts. -/
theorem map_words_splitOnP_blanks_append (h : ∀ c ∈ blanks, isBlank c = true)
    (hp : ∀ c ∈ blanks, p c = false) (s : List Char) :
    ((blanks ++ s).splitOnP p).map words = (s.splitOnP p).map words := by
  obtain ⟨part, parts, hparts⟩ := List.exists_cons_of_ne_nil (List.splitOnP_ne_nil p s)
  rw [splitOnP_append hp, hparts, List.modifyHead_cons, List.map_cons, words_append_of_blanks h,
    List.map_cons]

theorem words_append_blanks (h : ∀ c ∈ blanks, isBlank c = true) (s : List Char) :
    words (s ++ blanks) = words s := by
  cases blanks with
  | nil => rw [List.append_nil]
  | cons c blanks =>
    rw [List.forall_mem_cons] at h
    rw [words_append_blank h.1, words_eq_nil_iff.mpr h.2, List.append_nil]

/-- Nor do blanks behind it. -/
theorem map_words_splitOnP_append_blanks (h : ∀ c ∈ blanks, isBlank c = true)
    (hp : ∀ c ∈ blanks, p c = false) (s : List Char) :
    ((s ++ blanks).splitOnP p).map words = (s.splitOnP p).map words := by
  -- along the parts, since the blanks belong to the last of them
  induction hn : s.length using Nat.strongRecOn generalizing s with
  | ind n ih =>
    by_cases hs : ∀ c ∈ s, p c = false
    · have hall : ∀ c ∈ s ++ blanks, p c = false :=
        fun c hc => (List.mem_append.mp hc).elim (hs c) (hp c)
      rw [List.splitOnP_eq_singleton hs, List.splitOnP_eq_singleton hall, List.map_singleton,
        List.map_singleton, words_append_blanks h]
    · obtain ⟨c, hm, hc⟩ : ∃ c ∈ s, p c = true := by simpa using hs
      obtain ⟨front, rest, rfl⟩ := List.append_of_mem hm
      have hrest := ih rest.length (by simp [← hn]; omega) rest rfl
      rw [List.append_assoc, List.cons_append, List.splitOnP_append_cons _ _ hc,
        List.splitOnP_append_cons _ _ hc, List.map_append, List.map_append, hrest]

end Blanks

end Constituency.Text
