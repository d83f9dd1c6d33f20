import Constituency.Proofs.Bracketing
import Constituency.Proofs.Derivation
import Constituency.Proofs.Rendering
import Constituency.Proofs.Splicing

/-!
Bracketed trees, read again. A tree reads back as itself exactly when its labels and words are
tokens of their own, no branch is empty, its leaves are numbered from the left, and every branch has
the span of its leaves. What reading gives is always such a tree, since a branch gets its span when
it is closed.
-/
namespace Constituency

open SyntaxTree

/-- A text that a bracketed tree takes for one label or word. -/
structure IsToken (s : String) : Prop extends IsWord s where
  no_bracket : Bracketed.NoBracket s

instance (s : String) : Decidable (IsToken s) :=
  decidable_of_iff (IsWord s ∧ Bracketed.NoBracket s) ⟨fun h => ⟨h.1, h.2⟩, fun h => ⟨h.1, h.2⟩⟩

/-- The leaves are numbered from the left, the first one by this number. -/
def Numbered (first : Nat) (leaves : List (String × Span)) : Prop :=
  ∀ (k : Nat) (leaf : String × Span), leaves[k]? = some leaf → leaf.2 = ⟨first + k, first + k + 1⟩

/-- Every branch has a child, and runs from the start of its first leaf to the end of its last
one. -/
inductive Spanned : Tree → Prop
  | leaf (w : String) (s : Span) : Spanned (.leaf w s)
  | branch {l : Symbol} {s : Span} {ts : List Tree} (hne : ts ≠ [])
      (hs : extent (leavesAll ts) = some s) (hts : ∀ t ∈ ts, Spanned t) : Spanned (.branch l s ts)

/-- Trees side by side as reading can give them when this many leaves stand before. -/
structure Readable (first : Nat) (ts : List Tree) : Prop where
  labels : ∀ l ∈ labelsAll ts, IsToken l
  words : ∀ leaf ∈ leavesAll ts, IsToken leaf.1
  numbered : Numbered first (leavesAll ts)
  spanned : ∀ t ∈ ts, Spanned t

theorem numbered_append_iff {first : Nat} {xs ys : List (String × Span)} :
    Numbered first (xs ++ ys) ↔ Numbered first xs ∧ Numbered (first + xs.length) ys := by
  constructor
  · intro h
    refine ⟨fun k leaf hk => ?_, fun k leaf hk => ?_⟩
    · have hlt := (List.getElem?_eq_some_iff.mp hk).1
      exact h k leaf (by rw [List.getElem?_append_left hlt, hk])
    · have hsum :=
        h (xs.length + k) leaf (by rw [List.getElem?_append_right (by omega)]; simpa using hk)
      rw [hsum, ← Nat.add_assoc]
  · intro ⟨hx, hy⟩ k leaf hk
    by_cases hlt : k < xs.length
    · rw [List.getElem?_append_left hlt] at hk
      exact hx k leaf hk
    · rw [List.getElem?_append_right (by omega)] at hk
      rw [hy _ leaf hk]
      congr 1 <;> omega

/-- Numbered leaves extend from the first number to the one after the last. -/
theorem Numbered.extent_eq {first : Nat} {leaves : List (String × Span)} (h : Numbered first leaves)
    (hne : leaves ≠ []) : extent leaves = some ⟨first, first + leaves.length⟩ := by
  have hpos : 0 < leaves.length := List.length_pos_iff.mpr hne
  have hhead : leaves.head? = some leaves[0] := by
    rw [List.head?_eq_getElem?, List.getElem?_eq_getElem hpos]
  have hlast : leaves.getLast? = some leaves[leaves.length - 1] := by
    rw [List.getLast?_eq_getElem?, List.getElem?_eq_getElem (by omega)]
  have hfirst := h 0 _ (List.getElem?_eq_getElem hpos)
  have hend := h (leaves.length - 1) _ (List.getElem?_eq_getElem (by omega))
  rw [extent, hhead, hlast]
  simp only [hfirst, hend]
  congr 2
  omega

theorem leavesAll_singleton (t : Tree) : leavesAll [t] = t.leaves := by simp [leavesAll]

namespace Readable

theorem nil (first : Nat) : Readable first [] := by
  constructor <;> simp [labelsAll, leavesAll, Numbered]

theorem append_iff {first : Nat} {ts us : List Tree} :
    Readable first (ts ++ us) ↔
      Readable first ts ∧ Readable (first + (leavesAll ts).length) us := by
  have hlabels (q : Symbol → Prop) : (∀ l ∈ labelsAll (ts ++ us), q l) ↔
      (∀ l ∈ labelsAll ts, q l) ∧ ∀ l ∈ labelsAll us, q l := by
    rw [labelsAll_append, List.forall_mem_append]
  have hwords (q : String × Span → Prop) : (∀ leaf ∈ leavesAll (ts ++ us), q leaf) ↔
      (∀ leaf ∈ leavesAll ts, q leaf) ∧ ∀ leaf ∈ leavesAll us, q leaf := by
    rw [leavesAll_append, List.forall_mem_append]
  constructor
  · intro ⟨hl, hw, hn, hs⟩
    rw [leavesAll_append, numbered_append_iff] at hn
    rw [List.forall_mem_append] at hs
    exact ⟨⟨((hlabels _).mp hl).1, ((hwords _).mp hw).1, hn.1, hs.1⟩,
      ⟨((hlabels _).mp hl).2, ((hwords _).mp hw).2, hn.2, hs.2⟩⟩
  · intro ⟨ht, hu⟩
    refine ⟨(hlabels _).mpr ⟨ht.labels, hu.labels⟩, (hwords _).mpr ⟨ht.words, hu.words⟩, ?_, ?_⟩
    · rw [leavesAll_append, numbered_append_iff]
      exact ⟨ht.numbered, hu.numbered⟩
    · rw [List.forall_mem_append]
      exact ⟨ht.spanned, hu.spanned⟩

theorem cons_iff {first : Nat} {t : Tree} {ts : List Tree} :
    Readable first (t :: ts) ↔ Readable first [t] ∧ Readable (first + t.leaves.length) ts := by
  rw [← leavesAll_singleton, ← append_iff, List.singleton_append]

theorem leaf_iff {first : Nat} {w : String} {s : Span} :
    Readable first [.leaf w s] ↔ IsToken w ∧ s = ⟨first, first + 1⟩ := by
  constructor
  · intro h
    exact ⟨h.words (w, s) (by simp [leavesAll, leaves]),
      h.numbered 0 (w, s) (by simp [leavesAll, leaves])⟩
  · rintro ⟨hw, rfl⟩
    refine ⟨by simp [labelsAll, SyntaxTree.labels], by simpa [leavesAll, leaves] using hw, ?_, ?_⟩
    · intro k leaf hk
      obtain ⟨rfl, rfl⟩ : k = 0 ∧ leaf = (w, ⟨first, first + 1⟩) := by
        cases k with
        | zero => simpa [leavesAll, leaves, eq_comm] using hk
        | succ k => simp [leavesAll, leaves] at hk
      rfl
    · simpa using Spanned.leaf w _

mutual

theorem leaves_ne_nil : (t : Tree) → Spanned t → t.leaves ≠ []
  | .leaf _ _, _ => by simp [leaves]
  | .branch _ _ ts, h => by
    cases h with
    | branch hne _ hts => exact leavesAll_ne_nil ts hne hts

theorem leavesAll_ne_nil : (ts : List Tree) → ts ≠ [] → (∀ t ∈ ts, Spanned t) → leavesAll ts ≠ []
  | [], hne, _ => absurd rfl hne
  | t :: ts, _, h => by
    rw [leavesAll]
    exact List.append_ne_nil_of_left_ne_nil (leaves_ne_nil t (h t List.mem_cons_self)) _

end

theorem branch_iff {first : Nat} {l : Symbol} {s : Span} {ts : List Tree} :
    Readable first [.branch l s ts] ↔
      IsToken l ∧ ts ≠ [] ∧ s = ⟨first, first + (leavesAll ts).length⟩ ∧ Readable first ts := by
  have hlabels : labelsAll [SyntaxTree.branch l s ts] = l :: labelsAll ts := by
    simp [labelsAll, SyntaxTree.labels]
  have hleaves : leavesAll [SyntaxTree.branch l s ts] = leavesAll ts := by simp [leavesAll, leaves]
  constructor
  · intro ⟨hl, hw, hn, hs⟩
    rw [hlabels, List.forall_mem_cons] at hl
    rw [hleaves] at hw hn
    cases hs _ List.mem_cons_self with
    | branch hne hspan hts =>
      rw [hn.extent_eq (leavesAll_ne_nil ts hne hts)] at hspan
      exact ⟨hl.1, hne, (Option.some.inj hspan).symm, hl.2, hw, hn, hts⟩
  · rintro ⟨hl, hne, rfl, h⟩
    refine ⟨?_, ?_, ?_, ?_⟩
    · rw [hlabels, List.forall_mem_cons]
      exact ⟨hl, h.labels⟩
    · rw [hleaves]
      exact h.words
    · rw [hleaves]
      exact h.numbered
    · rw [List.forall_mem_singleton]
      exact .branch hne (h.numbered.extent_eq (leavesAll_ne_nil ts hne h.spanned)) h.spanned

end Readable

namespace SyntaxTree

mutual

/-- The tokens of a bracketed tree. -/
def tokens : Tree → List String
  | .leaf w _ => [w]
  | .branch l _ ts => "(" :: l :: (tokensAll ts ++ [")"])

def tokensAll : List Tree → List String
  | [] => []
  | t :: ts => tokens t ++ tokensAll ts

end

theorem toList_bracketed_branch (l : Symbol) (s : Span) (ts : List Tree) :
    (bracketed (.branch l s ts)).toList =
      "(".toList ++ ' ' :: (l.toList ++ (bracketedAll ts).toList ++ ' ' :: ")".toList) := by
  simp [bracketed]

theorem toList_bracketedAll_cons (t : Tree) (ts : List Tree) :
    (bracketedAll (t :: ts)).toList = ' ' :: (t.bracketed.toList ++ (bracketedAll ts).toList) := by
  simp [bracketedAll]

open Text

mutual

/-- A readable tree falls back into the tokens that it was put together from. -/
theorem words_bracketed : (t : Tree) → {n : Nat} → Readable n [t] →
    Text.words t.bracketed.toList = (tokens t).map String.toList
  | .leaf w s, _, h => (Readable.leaf_iff.mp h).1.words_toList
  | .branch l s ts, _, h => by
    obtain ⟨hl, -, -, hts⟩ := Readable.branch_iff.mp h
    have hopen : Text.words "(".toList = ["(".toList] := by decide
    have hclose : Text.words ")".toList = [")".toList] := by decide
    rw [toList_bracketed_branch, words_append_blank isBlank_space,
      words_append_blank isBlank_space, hopen,
      hclose, words_append_bracketedAll ts hts, hl.words_toList, tokens]
    simp

/-- Trees with a space before each add their tokens to the words of what they are written after. -/
theorem words_append_bracketedAll :
    (ts : List Tree) → {n : Nat} → Readable n ts → (front : List Char) →
    Text.words (front ++ (bracketedAll ts).toList) =
      Text.words front ++ (tokensAll ts).map String.toList
  | [], _, _, front => by simp [bracketedAll, tokensAll]
  | t :: ts, _, h, front => by
    obtain ⟨ht, hts⟩ := Readable.cons_iff.mp h
    rw [toList_bracketedAll_cons, words_append_blank isBlank_space,
      words_append_bracketedAll ts hts, words_bracketed t ht, tokensAll, List.map_append]

end

end SyntaxTree

namespace Bracketed

/-- From its label to its closing bracket, an opened branch becomes a tree. -/
theorem runs_branch {l : Symbol} (hl : NoBracket l) {ts : List Tree} (hne : ts ≠ [])
    {fs : List Frame} {n m : Nat}
    (h : Runs ⟨.inside ⟨l, n, []⟩ fs, n⟩ (tokensAll ts) ⟨.inside ⟨l, n, ts.reverse⟩ fs, m⟩) :
    Runs ⟨.opened fs, n⟩ (l :: (tokensAll ts ++ [")"])) ⟨place (.branch l ⟨n, m⟩ ts) fs, m⟩ := by
  have hbranch : Frame.close ⟨l, n, ts.reverse⟩ m = .branch l ⟨n, m⟩ ts := by simp [Frame.close]
  have hclose :
      Takes ")" ⟨.inside ⟨l, n, ts.reverse⟩ fs, m⟩ ⟨place (.branch l ⟨n, m⟩ ts) fs, m⟩ := by
    rw [← hbranch]
    exact .close rfl (by simpa using hne) fs m
  exact .cons (.label hl fs n) (h.append hclose.runs)

mutual

/-- Over the tokens of a readable tree, the reader places that tree. -/
theorem runs_tokens : (t : Tree) → (n : Nat) → Readable n [t] → (f : Frame) → (fs : List Frame) →
    Runs ⟨.inside f fs, n⟩ (tokens t) ⟨place t (f :: fs), n + t.leaves.length⟩
  | .leaf w s, n, h, f, fs => by
    obtain ⟨hw, rfl⟩ := Readable.leaf_iff.mp h
    exact (Takes.word hw.no_bracket f fs n).runs
  | .branch l s ts, n, h, f, fs => by
    obtain ⟨hl, hne, rfl, hts⟩ := Readable.branch_iff.mp h
    have hrun := runs_tokensAll ts n hts ⟨l, n, []⟩ (f :: fs)
    rw [List.append_nil] at hrun
    exact .cons (.openChild rfl f fs n) (runs_branch hl.no_bracket hne hrun)

theorem runs_tokensAll :
    (ts : List Tree) → (n : Nat) → Readable n ts → (f : Frame) → (fs : List Frame) →
    Runs ⟨.inside f fs, n⟩ (tokensAll ts)
      ⟨.inside { f with children := ts.reverse ++ f.children } fs, n + (leavesAll ts).length⟩
  | [], n, _, f, fs => .nil _
  | t :: ts, n, h, f, fs => by
    obtain ⟨ht, hts⟩ := Readable.cons_iff.mp h
    have hfirst := runs_tokens t n ht f fs
    have hrest := runs_tokensAll ts _ hts { f with children := t :: f.children } fs
    have hruns := hfirst.append hrest
    rw [List.append_cons, ← List.reverse_cons, Nat.add_assoc, ← List.length_append] at hruns
    exact hruns

end

/-- A readable tree is what its tokens read as. -/
theorem readTokens_tokens {t : Tree} (h : Readable 0 [t]) : readTokens (tokens t) = .ok t := by
  rw [readTokens_eq_ok_iff]
  cases t with
  | leaf w s =>
    obtain ⟨hw, rfl⟩ := Readable.leaf_iff.mp h
    exact ⟨1, (Takes.rootWord hw.no_bracket 0).runs⟩
  | branch l s ts =>
    obtain ⟨hl, hne, rfl, hts⟩ := Readable.branch_iff.mp h
    have hrun := runs_tokensAll ts 0 hts ⟨l, 0, []⟩ []
    rw [List.append_nil] at hrun
    exact ⟨_, .cons (.openRoot rfl 0) (runs_branch hl.no_bracket hne hrun)⟩

/-- The children of the open branches so far, each frame after the leaves before it. -/
def Framed : Nat → List Frame → Prop
  | n, [] => n = 0
  | n, f :: fs => IsToken f.label ∧ Readable f.first f.children.reverse ∧
      n = f.first + (leavesAll f.children.reverse).length ∧ Framed f.first fs

/-- What a reader has read so far is readable. -/
def Sound : Reader → Prop
  | ⟨.start, n⟩ => n = 0
  | ⟨.opened fs, n⟩ => Framed n fs
  | ⟨.inside f fs, n⟩ => Framed n (f :: fs)
  | ⟨.done t, _⟩ => Readable 0 [t]

theorem sound_place {n m : Nat} {t : Tree} {fs : List Frame} (hfs : Framed n fs)
    (ht : Readable n [t]) (hm : m = n + t.leaves.length) : Sound ⟨place t fs, m⟩ := by
  cases fs with
  | nil =>
    obtain rfl : n = 0 := hfs
    exact ht
  | cons f fs =>
    obtain ⟨hl, hchildren, rfl, hrest⟩ := hfs
    refine ⟨hl, ?_, ?_, hrest⟩
    · rw [List.reverse_cons, Readable.append_iff]
      exact ⟨hchildren, ht⟩
    · rw [hm, List.reverse_cons, leavesAll_append, leavesAll_singleton, List.length_append,
        Nat.add_assoc]

/-- Taking a word of a text keeps a reader sound. -/
theorem Takes.sound {token : String} (hword : IsWord token) {r s : Reader} (h : Takes token r s)
    (hr : Sound r) : Sound s := by
  cases h with
  | openRoot _ n => exact hr
  | rootWord ht n =>
    obtain rfl : n = 0 := hr
    exact Readable.leaf_iff.mpr ⟨⟨hword, ht⟩, rfl⟩
  | label ht fs n => exact ⟨⟨hword, ht⟩, .nil n, rfl, hr⟩
  | openChild _ f fs n => exact hr
  | @close _ f hf fs n =>
    obtain ⟨hl, hchildren, rfl, hrest⟩ := hr
    have hne : f.children.reverse ≠ [] := by simpa using hf
    exact sound_place hrest (Readable.branch_iff.mpr ⟨hl, hne, rfl, hchildren⟩) rfl
  | word ht f fs n => exact sound_place hr (Readable.leaf_iff.mpr ⟨⟨hword, ht⟩, rfl⟩) rfl

theorem Runs.sound {tokens : List String} (hwords : ∀ token ∈ tokens, IsWord token) {r s : Reader}
    (h : Runs r tokens s) (hr : Sound r) : Sound s := by
  induction h with
  | nil => exact hr
  | cons htakes _ ih =>
    rw [List.forall_mem_cons] at hwords
    exact ih hwords.2 (htakes.sound hwords.1 hr)

/-- A tree that is read is readable. -/
theorem readable_of_read {text : String} {t : Tree} (h : read text = .ok t) : Readable 0 [t] := by
  obtain ⟨n, hruns⟩ := readTokens_eq_ok_iff.mp h
  refine hruns.sound (fun token htoken => ?_) rfl
  obtain ⟨w, hw, rfl⟩ := List.mem_map.mp htoken
  exact isWord_of_mem_words hw

theorem read_bracketed {t : Tree} (h : Readable 0 [t]) : read t.bracketed = .ok t := by
  rw [read, Text.wordsOf, words_bracketed t h, List.map_map]
  simpa using readTokens_tokens h

theorem readable_iff {t : Tree} : Readable 0 [t] ↔
    (∀ l ∈ t.labels, IsToken l) ∧ (∀ w ∈ t.words, IsToken w) ∧
    (∀ (k : Nat) (leaf : String × Span), t.leaves[k]? = some leaf → leaf.2 = ⟨k, k + 1⟩) ∧
      Spanned t := by
  have hlabels : labelsAll [t] = t.labels := by simp [labelsAll]
  constructor
  · intro ⟨hl, hw, hn, hs⟩
    rw [hlabels] at hl
    rw [leavesAll_singleton] at hw hn
    refine ⟨hl, by simpa [SyntaxTree.words] using hw, ?_, hs t List.mem_cons_self⟩
    simpa [Numbered] using hn
  · intro ⟨hl, hw, hn, hs⟩
    refine ⟨by rwa [hlabels], ?_, ?_, by simpa using hs⟩
    · rw [leavesAll_singleton]
      simpa [SyntaxTree.words] using hw
    · rw [leavesAll_singleton]
      simpa [Numbered] using hn

/-- A tree reads back from its bracketed text as itself exactly when its labels and words are words
that are no brackets, its leaves are numbered from the left, and every branch has a child and the
span of its leaves. Every tree that is read does. -/
theorem read_bracketed_iff :
    (∀ t : Tree, read t.bracketed = .ok t ↔
      (∀ l ∈ t.labels, IsToken l) ∧ (∀ w ∈ t.words, IsToken w) ∧
      (∀ (k : Nat) (leaf : String × Span), t.leaves[k]? = some leaf → leaf.2 = ⟨k, k + 1⟩) ∧
        Spanned t) ∧
    ∀ text t, read text = .ok t → read t.bracketed = .ok t := by
  refine ⟨fun t => ?_, fun text t h => read_bracketed (readable_of_read h)⟩
  rw [← readable_iff]
  exact ⟨readable_of_read, read_bracketed⟩

/-- A text with other blanks in it, and a tree whose first branch claims a leaf too many. -/
theorem read_bracketed_iff_blanks :
    let t : Tree := .branch "S" ⟨0, 2⟩ [.branch "NP" ⟨0, 1⟩ [.leaf "dog" ⟨0, 1⟩], .leaf "()" ⟨1, 2⟩]
    let u : Tree := .branch "S" ⟨0, 2⟩ [.branch "NP" ⟨0, 2⟩ [.leaf "dog" ⟨0, 1⟩], .leaf "()" ⟨1, 2⟩]
    read "(\tS ( NP\u00a0dog )\n() ) " = .ok t ∧ read t.bracketed = .ok t ∧
      read u.bracketed ≠ .ok u := by
  intro t u
  have hread : read "(\tS ( NP\u00a0dog )\n() ) " = .ok t := by decide +kernel
  refine ⟨hread, read_bracketed_iff.2 _ t hread, fun h => ?_⟩
  obtain ⟨-, -, -, hspanned⟩ := (read_bracketed_iff.1 u).mp h
  change Spanned (.branch _ _ _) at hspanned
  cases hspanned with
  | branch _ _ hts =>
    cases hts _ List.mem_cons_self with
    | branch _ hs => cases hs

end Bracketed

end Constituency
