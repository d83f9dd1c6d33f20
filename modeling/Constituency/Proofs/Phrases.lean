import Mathlib.Data.List.Basic
import Mathlib.Order.Bounds.Basic
import Constituency.Proofs.Bracketing

/-!
The token sequences that are trees, and what reading says of all others. At every stage of a reading
there are the sequences that complete it. Taking a token leaves those that had the token in front, a
refused token is in front of none, and every stage can be completed; so the first token that is
refused is the first one after which no tree is possible any more.
-/
namespace Constituency.Bracketed

mutual

/-- The tokens of a tree: a word, or a label and one tree or more between brackets. -/
inductive Phrase : List String → Prop
  | word {w : String} (hw : NoBracket w) : Phrase [w]
  | branch {l : Symbol} {ts : List String} (hl : NoBracket l) (h : Phrases ts) :
      Phrase ("(" :: l :: (ts ++ [")"]))

/-- The tokens of one tree or more. -/
inductive Phrases : List String → Prop
  | one {ts : List String} (h : Phrase ts) : Phrases ts
  | more {ts us : List String} (h : Phrase ts) (hs : Phrases us) : Phrases (ts ++ us)

end

/-- Tokens with which the tokens of a tree can begin. -/
def Viable (tokens : List String) : Prop := ∃ rest, Phrase (tokens ++ rest)

/-- What closes the open branches, each of which may get more children before. -/
def Closes : List Frame → List String → Prop
  | [], rest => rest = []
  | _ :: fs, rest =>
    ∃ ts after, (ts = [] ∨ Phrases ts) ∧ Closes fs after ∧ rest = ts ++ ")" :: after

/-- What makes a tree of the tokens that led to a stage. A branch without children needs one before
it is closed. -/
def Completes : Stage → List String → Prop
  | .start, rest => Phrase rest
  | .opened fs, rest => ∃ l ts after, NoBracket l ∧ Phrases ts ∧ Closes fs after ∧
      rest = l :: (ts ++ ")" :: after)
  | .inside f fs, rest => ∃ ts after, (ts = [] ∧ f.children ≠ [] ∨ Phrases ts) ∧ Closes fs after ∧
      rest = ts ++ ")" :: after
  | .done _, rest => rest = []

/-- The first token of a tree tells what kind of tree it is. -/
theorem phrase_cons_iff {token : String} {ts : List String} :
    Phrase (token :: ts) ↔ (NoBracket token ∧ ts = []) ∨
      (token = "(" ∧ ∃ l us, NoBracket l ∧ Phrases us ∧ ts = l :: (us ++ [")"])) := by
  constructor
  · intro h
    generalize heq : token :: ts = tokens at h
    cases h with
    | word hw =>
      obtain ⟨rfl, rfl⟩ := List.cons.inj heq
      exact .inl ⟨hw, rfl⟩
    | branch hl h =>
      obtain ⟨rfl, rfl⟩ := List.cons.inj heq
      exact .inr ⟨rfl, _, _, hl, h, rfl⟩
  · rintro (⟨hw, rfl⟩ | ⟨rfl, l, us, hl, h, rfl⟩)
    · exact .word hw
    · exact .branch hl h

theorem phrase_open_iff {ts : List String} :
    Phrase ("(" :: ts) ↔ ∃ l us, NoBracket l ∧ Phrases us ∧ ts = l :: (us ++ [")"]) := by
  simp [phrase_cons_iff, NoBracket]

theorem not_phrase_close {ts : List String} : ¬ Phrase (")" :: ts) := by
  simp [phrase_cons_iff, NoBracket]

theorem phrase_word_iff {w : String} (hw : NoBracket w) {ts : List String} :
    Phrase (w :: ts) ↔ ts = [] := by
  simp [phrase_cons_iff, hw, hw.1]

theorem Phrase.ne_nil {ts : List String} (h : Phrase ts) : ts ≠ [] := by
  cases h <;> simp

theorem phrases_iff {ts : List String} :
    Phrases ts ↔ ∃ us vs, Phrase us ∧ (vs = [] ∨ Phrases vs) ∧ ts = us ++ vs := by
  constructor
  · intro h
    cases h with
    | one h => exact ⟨ts, [], h, .inl rfl, by simp⟩
    | more h hs => exact ⟨_, _, h, .inr hs, rfl⟩
  · rintro ⟨us, vs, h, rfl | hs, rfl⟩
    · rw [List.append_nil]
      exact .one h
    · exact .more h hs

/-- A closing bracket, or the first token of a child. -/
theorem completes_inside_cons {f : Frame} {fs : List Frame} {token : String} {rest : List String} :
    Completes (.inside f fs) (token :: rest) ↔
      (token = ")" ∧ f.children ≠ [] ∧ Closes fs rest) ∨
      ∃ us after, Phrase (token :: us) ∧ Closes (f :: fs) after ∧ rest = us ++ after := by
  constructor
  · rintro ⟨ts, after, ⟨rfl, hf⟩ | hts, hclose, heq⟩
    · obtain ⟨rfl, rfl⟩ := List.cons.inj heq
      exact .inl ⟨rfl, hf, hclose⟩
    · obtain ⟨us, vs, hus, hvs, rfl⟩ := phrases_iff.mp hts
      cases us with
      | nil => exact absurd rfl hus.ne_nil
      | cons u us =>
        rw [List.append_assoc, List.cons_append] at heq
        obtain ⟨rfl, rfl⟩ := List.cons.inj heq
        exact .inr ⟨us, _, hus, ⟨vs, after, hvs, hclose, rfl⟩, rfl⟩
  · rintro (⟨rfl, hf, hclose⟩ | ⟨us, _, hus, ⟨vs, after, hvs, hclose, rfl⟩, rfl⟩)
    · exact ⟨[], rest, .inl ⟨rfl, hf⟩, hclose, rfl⟩
    · have hts : Phrases (token :: us ++ vs) := phrases_iff.mpr ⟨_, vs, hus, hvs, rfl⟩
      exact ⟨_, after, .inr hts, hclose, by simp⟩

/-- A finished tree counts as a child, so what is left is to close the open branches. -/
theorem completes_place {t : Tree} {fs : List Frame} {rest : List String} :
    Completes (place t fs) rest ↔ Closes fs rest := by
  cases fs with
  | nil => rfl
  | cons f fs =>
    simp only [place, Completes, Closes, ne_eq, reduceCtorEq, not_false_eq_true, and_true]

/-- What completes the stage after a token completes the stage before it with the token in front. -/
theorem Takes.completes_iff {token : String} {r s : Reader} (h : Takes token r s)
    {rest : List String} :
    Completes r.stage (token :: rest) ↔ Completes s.stage rest := by
  cases h with
  | openRoot ht n =>
    subst ht
    simp [Completes, phrase_open_iff, Closes]
  | rootWord ht n => exact phrase_word_iff ht
  | label ht fs n =>
    constructor
    · rintro ⟨l, ts, after, -, hts, hclose, heq⟩
      exact ⟨ts, after, .inr hts, hclose, (List.cons.inj heq).2⟩
    · rintro ⟨ts, after, ⟨-, hnot⟩ | hts, hclose, rfl⟩
      · exact absurd rfl hnot
      · exact ⟨token, ts, after, ht, hts, hclose, rfl⟩
  | openChild ht f fs n =>
    subst ht
    rw [completes_inside_cons]
    constructor
    · rintro (⟨h, -⟩ | ⟨us, after, hus, hclose, rfl⟩)
      · simp at h
      · obtain ⟨l, ts, hl, hts, rfl⟩ := phrase_open_iff.mp hus
        exact ⟨l, ts, after, hl, hts, hclose, by simp⟩
    · rintro ⟨l, ts, after, hl, hts, hclose, rfl⟩
      have hus : Phrase ("(" :: l :: (ts ++ [")"])) := .branch hl hts
      exact .inr ⟨_, after, hus, hclose, by simp⟩
  | close ht hf fs n =>
    subst ht
    rw [completes_place, completes_inside_cons]
    simp [not_phrase_close, hf]
  | word ht f fs n =>
    rw [completes_place, completes_inside_cons]
    simp [phrase_word_iff ht, ht.2]

/-- A refused token completes nothing. -/
theorem Refuses.not_completes {position : Nat} {token : String} {stage : Stage} {e : BracketError}
    (h : Refuses position token stage e) {rest : List String} :
    ¬ Completes stage (token :: rest) := by
  cases h with
  | start ht =>
    subst ht
    exact not_phrase_close
  | label ht fs =>
    rintro ⟨l, ts, after, hl, -, -, heq⟩
    exact ht ((List.cons.inj heq).1 ▸ hl)
  | close ht hf fs =>
    subst ht
    rw [completes_inside_cons]
    simp [not_phrase_close, hf]
  | done t => exact List.cons_ne_nil token rest

theorem Runs.completes_iff {r s : Reader} {tokens rest : List String} (h : Runs r tokens s) :
    Completes r.stage (tokens ++ rest) ↔ Completes s.stage rest := by
  induction h with
  | nil => rfl
  | cons htakes _ ih => rw [List.cons_append, htakes.completes_iff, ih]

theorem exists_closes (fs : List Frame) : ∃ rest, Closes fs rest := by
  induction fs with
  | nil => exact ⟨[], rfl⟩
  | cons f fs ih =>
    obtain ⟨rest, h⟩ := ih
    exact ⟨")" :: rest, [], rest, .inl rfl, h, rfl⟩

/-- Every stage can be completed. -/
theorem exists_completes (stage : Stage) : ∃ rest, Completes stage rest := by
  have hword : Phrase ["x"] := .word (by decide)
  cases stage with
  | start => exact ⟨_, hword⟩
  | opened fs =>
    obtain ⟨rest, h⟩ := exists_closes fs
    exact ⟨_, "x", ["x"], rest, by decide, .one hword, h, rfl⟩
  | inside f fs =>
    obtain ⟨rest, h⟩ := exists_closes fs
    exact ⟨_, ["x"], rest, .inr (.one hword), h, rfl⟩
  | done t => exact ⟨[], rfl⟩

/-- Only a reading that is done needs no more tokens. -/
theorem completes_nil_iff {stage : Stage} : Completes stage [] ↔ ∃ t, stage = .done t := by
  cases stage with
  | start => simpa [Completes] using fun h : Phrase [] => h.ne_nil rfl
  | opened fs => simp [Completes]
  | inside f fs => simp [Completes]
  | done t => simp [Completes]

section Runs

variable {tokens : List String} {s : Reader} (h : Runs Reader.initial tokens s)

include h

theorem Runs.phrase_append_iff {rest : List String} :
    Phrase (tokens ++ rest) ↔ Completes s.stage rest :=
  h.completes_iff

theorem Runs.phrase_iff : Phrase tokens ↔ ∃ t, s.stage = .done t := by
  rw [← completes_nil_iff, ← h.phrase_append_iff, List.append_nil]

theorem Runs.viable : Viable tokens := by
  obtain ⟨rest, hrest⟩ := exists_completes s.stage
  exact ⟨rest, h.phrase_append_iff.mpr hrest⟩

/-- After a refused token no tree is possible. -/
theorem Runs.not_viable {position : Nat} {token : String} {e : BracketError}
    (hr : Refuses position token s.stage e) (back : List String) :
    ¬ Viable (tokens ++ token :: back) := by
  rintro ⟨rest, hphrase⟩
  rw [List.append_assoc, h.phrase_append_iff, List.cons_append] at hphrase
  exact hr.not_completes hphrase

end Runs

theorem Viable.of_append {xs ys : List String} (h : Viable (xs ++ ys)) : Viable xs := by
  obtain ⟨rest, h⟩ := h
  exact ⟨ys ++ rest, by rwa [← List.append_assoc]⟩

theorem Phrase.viable {tokens : List String} (h : Phrase tokens) : Viable tokens :=
  ⟨[], by rwa [List.append_nil]⟩

theorem place_ne_opened {t : Tree} {fs gs : List Frame} : place t fs ≠ .opened gs := by
  cases fs <;> simp [place]

theorem children_of_place {t : Tree} {f : Frame} {fs gs : List Frame}
    (h : place t fs = .inside f gs) :
    f.children ≠ [] := by
  cases fs with
  | nil => cases h
  | cons g fs =>
    obtain ⟨rfl, -⟩ := Stage.inside.inj h
    exact List.cons_ne_nil t g.children

/-- An opening bracket and a label lead to a branch without children. -/
theorem Runs.inside_of_label {tokens : List String} {s : Reader} {label : String}
    (h : Runs Reader.initial tokens s) (hlast : ["(", label] <:+ tokens) :
    ∃ f fs, s.stage = .inside f fs ∧ f.label = label ∧ f.children = [] := by
  obtain ⟨front, rfl⟩ := hlast
  obtain ⟨r, -, hr⟩ := h.append_inv
  cases hr with
  | cons hopen hrest =>
    cases hrest with
    | cons hlabel hnil =>
      cases hnil
      cases hopen with
      | openRoot | openChild =>
        cases hlabel with
        | label => exact ⟨_, _, rfl, rfl, rfl⟩
      | rootWord ht | label ht | word ht => exact absurd rfl ht.1
      | close ht => simp at ht

theorem Runs.opened_last {tokens : List String} {s : Reader} {fs : List Frame}
    (h : Runs Reader.initial tokens s) (hs : s.stage = .opened fs) : ["("] <:+ tokens := by
  obtain rfl | ⟨front, last, rfl⟩ := tokens.eq_nil_or_concat'
  · cases h
    cases hs
  · obtain ⟨r, -, hlast⟩ := h.append_inv
    cases hlast with
    | cons htakes hnil =>
      cases hnil
      cases htakes with
      | openRoot ht | openChild ht => exact ⟨front, by rw [ht]⟩
      | close => exact absurd hs place_ne_opened
      | rootWord | label | word => cases hs

/-- Only an opening bracket and a label lead to a branch without children. -/
theorem Runs.label_last {tokens : List String} {s : Reader} {f : Frame} {fs : List Frame}
    (h : Runs Reader.initial tokens s) (hs : s.stage = .inside f fs) (hf : f.children = []) :
    ["(", f.label] <:+ tokens := by
  obtain rfl | ⟨front, last, rfl⟩ := tokens.eq_nil_or_concat'
  · cases h
    cases hs
  · obtain ⟨r, hfront, hlast⟩ := h.append_inv
    cases hlast with
    | cons htakes hnil =>
      cases hnil
      cases htakes with
      | label _ gs n =>
        obtain ⟨rfl, -⟩ := Stage.inside.inj hs
        obtain ⟨before, rfl⟩ := hfront.opened_last rfl
        exact ⟨before, by simp⟩
      | close => exact absurd hf (children_of_place hs)
      | word =>
        obtain ⟨rfl, -⟩ := Stage.inside.inj hs
        cases hf
      | rootWord | openRoot | openChild => cases hs

/-- Why a token is refused can be told from the tokens before it. -/
theorem Runs.refused {front : List String} {s : Reader} (h : Runs Reader.initial front s)
    {position : Nat} {token : String} {e : BracketError} (hr : Refuses position token s.stage e) :
    (Phrase front → e = .trailing token) ∧
    (∀ label, token = ")" → ["(", label] <:+ front → e = .emptyNode label) ∧
    (¬ Phrase front → ¬ (token = ")" ∧ ∃ label, ["(", label] <:+ front) →
      e = .unexpected token position) := by
  refine ⟨fun hphrase => ?_, fun label ht hlast => ?_, fun hphrase hlabel => ?_⟩
  · obtain ⟨t, hdone⟩ := h.phrase_iff.mp hphrase
    rw [hdone] at hr
    cases hr
    rfl
  · obtain ⟨f, fs, hinside, rfl, hf⟩ := h.inside_of_label hlast
    rw [hinside] at hr
    cases hr
    rfl
  · generalize hstage : s.stage = stage at hr
    cases hr with
    | start | label => rfl
    | close ht hf fs => exact absurd ⟨ht, _, h.label_last hstage hf⟩ hlabel
    | done t => exact absurd (h.phrase_iff.mpr ⟨t, hstage⟩) hphrase

/-- Tokens are a tree, or they end too early, or one of them is the first to be refused. -/
theorem readTokens_cases (tokens : List String) :
    (Phrase tokens ∧ ∃ t, readTokens tokens = .ok t) ∨
    (¬ Phrase tokens ∧ Viable tokens ∧ readTokens tokens = .error .unexpectedEnd) ∨
    ∃ front token back s e, tokens = front ++ token :: back ∧ Runs Reader.initial front s ∧
      Refuses front.length token s.stage e ∧ readTokens tokens = .error e := by
  obtain ⟨s, hrun, hruns⟩ | ⟨front, token, back, s, e, heq, hruns, hrefuses, hrun⟩ :=
    run_cases Reader.initial 0 tokens
  · have hread : readTokens tokens = s.finish := by rw [readTokens, hrun]
    rw [hread, hruns.phrase_iff]
    cases hstage : s.stage with
    | done t => exact .inl ⟨⟨t, rfl⟩, t, by rw [Reader.finish, hstage]⟩
    | start | opened | inside =>
      exact .inr (.inl ⟨by simp, hruns.viable, by rw [Reader.finish, hstage]⟩)
  · rw [Nat.zero_add] at hrefuses
    exact .inr (.inr ⟨front, token, back, s, e, heq, hruns, hrefuses, by rw [readTokens, hrun]⟩)

theorem Refuses.ne_unexpectedEnd {position : Nat} {token : String} {stage : Stage}
    {e : BracketError} (h : Refuses position token stage e) : e ≠ .unexpectedEnd := by
  cases h <;> simp

/-- A refused token is the first one after which no tree is possible. -/
theorem Runs.isLeast {front : List String} {s : Reader} (h : Runs Reader.initial front s)
    {position : Nat} {token : String} {e : BracketError} (hr : Refuses position token s.stage e)
    (back : List String) :
    IsLeast {p | ¬ Viable ((front ++ token :: back).take (p + 1))} front.length := by
  constructor
  · have htake : (front ++ token :: back).take (front.length + 1) = front ++ [token] := by
      rw [List.take_length_add_append, List.take_succ_cons, List.take_zero]
    rw [Set.mem_ofPred_eq, htake]
    exact h.not_viable hr []
  · intro p hp
    by_contra hlt
    rw [not_le] at hlt
    have htake : (front ++ token :: back).take (p + 1) = front.take (p + 1) :=
      List.take_append_of_le_length hlt
    have hviable : Viable (front.take (p + 1) ++ front.drop (p + 1)) := by
      rw [List.take_append_drop]
      exact h.viable
    rw [Set.mem_ofPred_eq, htake] at hp
    exact hp hviable.of_append

/-- Reading accepts the texts whose words are a tree. A text that ends too early begins a tree. Any
other text is refused at the first word after which no tree is possible: as trailing when a whole
tree stands before it, as closing an empty node when it is a closing bracket right after an opening
one and a label, and as unexpected at its position otherwise. -/
theorem read_language (text : String) :
    let tokens := Text.wordsOf text
    ((∃ t, read text = .ok t) ↔ Phrase tokens) ∧
    (read text = .error .unexpectedEnd ↔ ¬ Phrase tokens ∧ Viable tokens) ∧
    (¬ Viable tokens → ∃ p token,
      IsLeast {p | ¬ Viable (tokens.take (p + 1))} p ∧ tokens[p]? = some token ∧
      (Phrase (tokens.take p) → read text = .error (.trailing token)) ∧
      (∀ label, token = ")" → ["(", label] <:+ tokens.take p →
        read text = .error (.emptyNode label)) ∧
      (¬ Phrase (tokens.take p) → ¬ (token = ")" ∧ ∃ label, ["(", label] <:+ tokens.take p) →
        read text = .error (.unexpected token p))) := by
  intro tokens
  rw [read]
  obtain ⟨hphrase, t, hread⟩ | ⟨hphrase, hviable, hread⟩ |
    ⟨front, token, back, s, e, heq, hruns, hrefuses, hread⟩ := readTokens_cases tokens
  · simp [tokens, hread, hphrase, hphrase.viable]
  · simp [tokens, hread, hphrase, hviable]
  · have hnot : ¬ Viable tokens := heq ▸ hruns.not_viable hrefuses back
    have hphrase : ¬ Phrase tokens := fun h => hnot h.viable
    have htake : tokens.take front.length = front := by rw [heq, List.take_left]
    obtain ⟨htrailing, hempty, hunexpected⟩ := hruns.refused hrefuses
    refine ⟨?_, ?_, fun _ => ?_⟩
    · simp [tokens, hread, hphrase]
    · simp [tokens, hread, hnot, hrefuses.ne_unexpectedEnd]
    refine ⟨front.length, token, heq ▸ hruns.isLeast hrefuses back, by simp [heq], ?_⟩
    rw [htake, hread]
    exact ⟨fun h => by rw [htrailing h], fun label ht h => by rw [hempty label ht h],
      fun h h' => by rw [hunexpected h h']⟩

/-- A pair of brackets without a label, behind a child. -/
theorem read_language_unlabelled :
    let text := "( S ( NP dog )\n( ) x"
    let tokens := Text.wordsOf text
    ¬ Viable tokens ∧ read text = .error (.unexpected ")" 7) ∧ ∃ p token,
      IsLeast {p | ¬ Viable (tokens.take (p + 1))} p ∧ tokens[p]? = some token ∧
      (Phrase (tokens.take p) → read text = .error (.trailing token)) ∧
      (∀ label, token = ")" → ["(", label] <:+ tokens.take p →
        read text = .error (.emptyNode label)) ∧
      (¬ Phrase (tokens.take p) → ¬ (token = ")" ∧ ∃ label, ["(", label] <:+ tokens.take p) →
        read text = .error (.unexpected token p)) := by
  intro text tokens
  obtain ⟨hok, hend, hother⟩ := read_language text
  have hread : read text = .error (.unexpected ")" 7) := by decide +kernel
  have hnot : ¬ Viable tokens := by
    intro hviable
    rw [hread] at hok hend
    have hphrase : ¬ Phrase tokens := fun h => by simpa using hok.mpr h
    simpa using hend.mpr ⟨hphrase, hviable⟩
  exact ⟨hnot, hread, hother hnot⟩

end Constituency.Bracketed
