import Mathlib.Data.List.Forall2
import Constituency.Conversion
import Constituency.Proofs.Naming

/-!
What a conversion produces. Every production of the source has a main production with the same left
side, and every introduced symbol has the production that defines it. Either right side is obtained
in one way from a sequence of symbols: it is that sequence, or a compound for all but its last
symbol and that last symbol.
-/
namespace Constituency.Conversion

/-- The name that parts would like. -/
def wishOf : List Symbol → Symbol
  | [s] => unquote s
  | parts => joinWith "+" parts

theorem wishOf_of_two_le {parts : List Symbol} (h : 2 ≤ parts.length) :
    wishOf parts = joinWith "+" parts := by
  match parts, h with
  | _ :: _ :: _, _ => rfl

theorem exists_mem_right {α β : Type} {r : α → β → Prop} {xs : List α} {ys : List β}
    (h : List.Forall₂ r xs ys) {x : α} (hx : x ∈ xs) : ∃ y ∈ ys, r x y := by
  induction h with
  | nil => cases hx
  | cons hr _ ih =>
    obtain rfl | hx := List.mem_cons.mp hx
    · exact ⟨_, List.mem_cons_self, hr⟩
    · obtain ⟨y, hy, hxy⟩ := ih hx
      exact ⟨y, List.mem_cons_of_mem _ hy, hxy⟩

theorem exists_mem_left {α β : Type} {r : α → β → Prop} {xs : List α} {ys : List β}
    (h : List.Forall₂ r xs ys) {y : β} (hy : y ∈ ys) : ∃ x ∈ xs, r x y :=
  exists_mem_right h.flip hy

theorem not_mem_joinWith {c : Char} {separator : String} (hsep : c ∉ separator.toList)
    {parts : List Symbol} (h : ∀ s ∈ parts, c ∉ s.toList) :
    c ∉ (joinWith separator parts).toList := by
  induction parts with
  | nil => simp [joinWith]
  | cons s rest ih =>
    have hs := h s List.mem_cons_self
    have hrest := ih fun t ht => h t (List.mem_cons_of_mem _ ht)
    cases rest with
    | nil => exact hs
    | cons t rest =>
      rw [joinWith, String.toList_append, String.toList_append]
      simp only [List.mem_append, not_or]
      exact ⟨⟨hs, hsep⟩, hrest⟩

theorem not_mem_unquote {c : Char} {s : Symbol} (h : c ∉ s.toList) : c ∉ (unquote s).toList := by
  unfold unquote
  split
  · exact h
  · next d rest hs =>
    rw [hs, List.mem_cons, not_or] at h
    split
    · rw [String.toList_ofList]
      exact fun hm => h.2 (List.dropLast_subset _ hm)
    · rw [hs, List.mem_cons, not_or]
      exact h

variable {g : Grammar} {n n' : Naming}

/-- The symbol may stand beside others: a nonterminal, or a symbol in front of one terminal. -/
def Upright (g : Grammar) (n : Naming) (s : Symbol) : Prop :=
  (g.occursRight s = true ∧ g.isNonterminal s = true) ∨ ∃ t, g.isTerminal t = true ∧
    n.lookup s = some [t]

/-- Parts that an introduced symbol may stand for. -/
inductive Formed (g : Grammar) (n : Naming) : List Symbol → Prop
  | terminal {t : Symbol} (ht : g.isTerminal t = true) : Formed g n [t]
  | several {parts : List Symbol} (hlength : 2 ≤ parts.length) (hs : ∀ s ∈ parts, Upright g n s) :
      Formed g n parts

/-- The right-hand side for a sequence of symbols. -/
inductive Splits (n : Naming) : List Symbol → List Symbol → Prop
  | short {parts : List Symbol} (hlength : parts.length ≤ 2) : Splits n parts parts
  | long {parts : List Symbol} {compound last : Symbol} (hlength : 2 ≤ parts.length)
      (hc : n.lookup compound = some parts) : Splits n (parts ++ [last]) [compound, last]

/-- A sequence that is short enough is a right-hand side as it is. -/
theorem Splits.eq_of_length_le {parts rhs : List Symbol} (h : Splits n parts rhs)
    (hlength : parts.length ≤ 2) : rhs = parts := by
  cases h with
  | short _ => rfl
  | long h _ =>
    rw [List.length_append, List.length_singleton] at hlength
    omega

/-- The symbol itself, or the one in front of it when it is a terminal. -/
def Stands (g : Grammar) (n : Naming) (s u : Symbol) : Prop :=
  (g.isTerminal s = true ∧ n.lookup u = some [s]) ∨ (g.isNonterminal s = true ∧ u = s)

/-- The main production for a production of the source. -/
def Main (g : Grammar) (n : Naming) (p q : Production) : Prop :=
  q.lhs = p.lhs ∧ ((p.size < 2 ∧ q.rhs = p.rhs) ∨
    (2 ≤ p.size ∧ ∃ parts, List.Forall₂ (Stands g n) p.rhs parts ∧ Splits n parts q.rhs))

theorem Upright.mono {s : Symbol} (hs : Upright g n s) (h : n.Extends n') : Upright g n' s := by
  obtain hs | ⟨t, ht, hl⟩ := hs
  · exact .inl hs
  · exact .inr ⟨t, ht, h s [t] hl⟩

theorem Formed.mono {parts : List Symbol} (hf : Formed g n parts) (h : n.Extends n') :
    Formed g n' parts := by
  cases hf with
  | terminal ht => exact .terminal ht
  | several hlength hs => exact .several hlength fun s hm => (hs s hm).mono h

theorem Splits.mono {parts rhs : List Symbol} (hs : Splits n parts rhs) (h : n.Extends n') :
    Splits n' parts rhs := by
  cases hs with
  | short hlength => exact .short hlength
  | long hlength hc => exact .long hlength (h _ _ hc)

theorem Stands.mono {s u : Symbol} (hs : Stands g n s u) (h : n.Extends n') :
    Stands g n' s u := by
  obtain ⟨ht, hl⟩ | hs := hs
  · exact .inl ⟨ht, h u [s] hl⟩
  · exact .inr hs

theorem Main.mono {p q : Production} (hm : Main g n p q) (h : n.Extends n') : Main g n' p q := by
  obtain ⟨hlhs, hshort | ⟨hsize, parts, hstands, hsplits⟩⟩ := hm
  · exact ⟨hlhs, .inl hshort⟩
  · exact ⟨hlhs, .inr ⟨hsize, parts, hstands.imp fun _ _ hs => hs.mono h, hsplits.mono h⟩⟩

/-- A naming as a conversion builds it. -/
structure Sound (g : Grammar) (n : Naming) : Prop where
  consistent : n.Consistent wishOf g
  formed : ∀ s parts, n.lookup s = some parts → Formed g n parts

theorem sound_nil (g : Grammar) : Sound g [] where
  consistent := Naming.consistent_nil
  formed := by
    intro s parts h
    cases h

/-- No symbol on the right of a production holds the character. -/
def Lacks (g : Grammar) (c : Char) : Prop := ∀ p ∈ g.productions, ∀ s ∈ p.rhs, c ∉ s.toList

theorem Lacks.not_mem {c : Char} (hg : Lacks g c) {s : Symbol} (hs : g.occursRight s = true) :
    c ∉ s.toList := by
  obtain ⟨p, hp, hm⟩ := Grammar.occursRight_iff.mp hs
  exact hg p hp s hm

theorem Lacks.not_mem_terminal {c : Char} (hg : Lacks g c) {t : Symbol}
    (ht : g.isTerminal t = true) :
    c ∉ t.toList := hg.not_mem (Grammar.isTerminal_iff.mp ht).2

/-- Names hold no character that is neither in a right-hand side nor added by naming. -/
theorem Sound.not_mem_wishOf {c : Char} (hn : Sound g n) (hg : Lacks g c)
    (hc : c ∉ "DUMMY_".toList ∧ c ∉ "+".toList) {parts : List Symbol} (hf : Formed g n parts) :
    c ∉ (wishOf parts).toList := by
  cases hf with
  | terminal ht => exact not_mem_unquote (hg.not_mem_terminal ht)
  | several hlength hs =>
    rw [wishOf_of_two_le hlength]
    refine not_mem_joinWith hc.2 fun s hm => ?_
    obtain ⟨hs, -⟩ | ⟨t, ht, hl⟩ := hs s hm
    · exact hg.not_mem hs
    · obtain ⟨k, rfl, -⟩ := hn.consistent s [t] hl
      exact Naming.not_mem_iterate_mark hc.1 (not_mem_unquote (hg.not_mem_terminal ht)) k

theorem Sound.not_mem {c : Char} (hn : Sound g n) (hg : Lacks g c)
    (hc : c ∉ "DUMMY_".toList ∧ c ∉ "+".toList) {x : Symbol} {parts : List Symbol}
    (h : n.lookup x = some parts) : c ∉ x.toList := by
  have hwish := hn.not_mem_wishOf hg hc (hn.formed x parts h)
  obtain ⟨k, rfl, -⟩ := hn.consistent x parts h
  exact Naming.not_mem_iterate_mark hc.1 hwish k

/-- From one naming to a later one, with the productions that are made meanwhile. Symbols that
become known are defined, and the sources have their main productions in order. -/
structure Grows (g : Grammar) (n n' : Naming) (sources made : List Production) : Prop where
  extend : n.Extends n'
  sound : Sound g n'
  known : ∀ s parts, n'.lookup s = some parts → n.lookup s = some parts ∨ ∃ q ∈ made, q.lhs = s
  introduced : ∀ q ∈ made, g.isSymbol q.lhs = false →
    ∃ parts, n'.lookup q.lhs = some parts ∧ Splits n' parts q.rhs
  mains : List.Forall₂ (Main g n') sources (made.filter fun q => g.isSymbol q.lhs)

theorem Grows.refl (hn : Sound g n) : Grows g n n [] [] where
  extend := .refl n
  sound := hn
  known := fun _ _ h => .inl h
  introduced := by simp
  mains := .nil

theorem Grows.trans {a b c : Naming} {s₁ s₂ made₁ made₂ : List Production}
    (h₁ : Grows g a b s₁ made₁) (h₂ : Grows g b c s₂ made₂) :
    Grows g a c (s₁ ++ s₂) (made₁ ++ made₂) where
  extend := h₁.extend.trans h₂.extend
  sound := h₂.sound
  known := by
    intro s parts hs
    obtain hs | ⟨q, hq, rfl⟩ := h₂.known s parts hs
    · obtain hs | ⟨q, hq, rfl⟩ := h₁.known s parts hs
      · exact .inl hs
      · exact .inr ⟨q, List.mem_append_left _ hq, rfl⟩
    · exact .inr ⟨q, List.mem_append_right _ hq, rfl⟩
  introduced := by
    intro q hq hnew
    obtain hq | hq := List.mem_append.mp hq
    · obtain ⟨parts, hl, hs⟩ := h₁.introduced q hq hnew
      exact ⟨parts, h₂.extend _ _ hl, hs.mono h₂.extend⟩
    · exact h₂.introduced q hq hnew
  mains := by
    rw [List.filter_append]
    exact List.rel_append (h₁.mains.imp fun _ _ hm => hm.mono h₂.extend) h₂.mains

section Naming

variable (hg : Lacks g '|') (hn : Sound g n) {parts : List Symbol} (hf : Formed g n parts)

include hg hn hf

/-- Naming parts. -/
theorem sound_name {x : Symbol} (hname : n.name g (wishOf parts) parts = (x, n')) :
    n.Extends n' ∧ Sound g n' ∧ n'.lookup x = some parts ∧
      ∀ s known, n'.lookup s = some known → n.lookup s = some known ∨ s = x := by
  have hspec := Naming.name_spec hn.consistent parts (hn.not_mem_wishOf hg (by decide) hf)
  rw [hname] at hspec
  obtain ⟨hconsistent, hextend, hlookup, hold⟩ := hspec
  refine ⟨hextend, ⟨hconsistent, fun s known hs => ?_⟩, hlookup, hold⟩
  obtain hs | rfl := hold s known hs
  · exact (hn.formed s known hs).mono hextend
  · obtain rfl : parts = known := Option.some.inj (hlookup.symm.trans hs)
    exact hf.mono hextend

/-- Naming parts and then making, first of all, the production for the name. -/
theorem grows_of_name {x : Symbol} {n₁ : Naming} (hname : n.name g (wishOf parts) parts = (x, n₁))
    {sources made : List Production} (h : Grows g n₁ n' sources made) {rhs : List Symbol}
    (hs : Splits n' parts rhs) : Grows g n n' sources (⟨x, rhs⟩ :: made) := by
  obtain ⟨hextend, hsound, hlookup, hold⟩ := sound_name hg hn hf hname
  have hnew : g.isSymbol x = false := hsound.consistent.isSymbol hlookup
  refine ⟨hextend.trans h.extend, h.sound, ?_, ?_, ?_⟩
  · intro s known hk
    obtain hk | ⟨q, hq, rfl⟩ := h.known s known hk
    · obtain hk | rfl := hold s known hk
      · exact .inl hk
      · exact .inr ⟨_, List.mem_cons_self, rfl⟩
    · exact .inr ⟨q, List.mem_cons_of_mem _ hq, rfl⟩
  · intro q hq hfalse
    obtain rfl | hq := List.mem_cons.mp hq
    · exact ⟨parts, h.extend x parts hlookup, hs⟩
    · exact h.introduced q hq hfalse
  · rw [List.filter_cons_of_neg (by simp [hnew])]
    exact h.mains

end Naming

/-- What is in front of the symbols of a right-hand side may stand beside others. -/
theorem Stands.upright {s u : Symbol} (hs : g.occursRight s = true) (h : Stands g n s u) :
    Upright g n u := by
  obtain ⟨ht, hl⟩ | ⟨hnon, rfl⟩ := h
  · exact .inr ⟨s, ht, hl⟩
  · exact .inl ⟨hs, hnon⟩

/-- Isolating the terminals of a right-hand side. -/
theorem isolate_grows (hg : Lacks g '|') (hn : Sound g n) {rhs : List Symbol}
    (hs : ∀ s ∈ rhs, g.occursRight s = true) {made : List Production} {parts : List Symbol}
    (h : isolate g rhs n = (made, parts, n')) :
    Grows g n n' [] made ∧ List.Forall₂ (Stands g n') rhs parts := by
  induction rhs generalizing n made parts with
  | nil =>
    cases h
    exact ⟨.refl hn, .nil⟩
  | cons s rest ih =>
    have hrest : ∀ t ∈ rest, g.occursRight t = true := fun t ht => hs t (List.mem_cons_of_mem _ ht)
    have hright := hs s List.mem_cons_self
    rw [isolate] at h
    cases ht : g.isTerminal s with
    | true =>
      rw [if_pos ht] at h
      rcases hname : n.name g (unquote s) [s] with ⟨dummy, n₁⟩
      rcases hrec : isolate g rest n₁ with ⟨made', parts', n₂⟩
      simp only [hname, hrec] at h
      cases h
      have hf : Formed g n [s] := .terminal ht
      obtain ⟨-, hsound, hlookup, -⟩ := sound_name hg hn hf hname
      obtain ⟨hgrows, hstands⟩ := ih hsound hrest hrec
      exact ⟨grows_of_name hg hn hf hname hgrows (.short (by simp)),
        .cons (.inl ⟨ht, hgrows.extend _ _ hlookup⟩) hstands⟩
    | false =>
      rw [if_neg (by simp [ht])] at h
      rcases hrec : isolate g rest n with ⟨made', parts', n₂⟩
      simp only [hrec] at h
      cases h
      obtain ⟨hgrows, hstands⟩ := ih hn hrest hrec
      have hnon : g.isNonterminal s = true := by simpa [Grammar.isTerminal, hright] using ht
      exact ⟨hgrows, .cons (.inr ⟨hnon, rfl⟩) hstands⟩

theorem chain_of_length_le {rhs : List Symbol} (h : rhs.length ≤ 2) (lhs : Symbol) :
    chain g lhs rhs n = ([⟨lhs, rhs.reverse⟩], n) := by
  match rhs, h with
  | [], _ => rfl
  | [_], _ => rfl
  | [_, _], _ => rfl

theorem chain_cons {front : List Symbol} (h : 2 ≤ front.length) (lhs last : Symbol) :
    chain g lhs (last :: front) n =
      let (compound, n) := n.name g (joinWith "+" front.reverse) front.reverse
      let (ps, n) := chain g compound front n
      (⟨lhs, [compound, last]⟩ :: ps, n) := by
  match front, h with
  | _ :: _ :: _, _ => rfl

/-- Dividing a sequence of symbols, given last symbol first. -/
theorem chain_grows (hg : Lacks g '|') (hn : Sound g n) {lhs : Symbol} {backwards : List Symbol}
    (hs : ∀ s ∈ backwards, Upright g n s) {made : List Production}
    (h : chain g lhs backwards n = (made, n')) :
    ∃ rhs rest, made = ⟨lhs, rhs⟩ :: rest ∧ Splits n' backwards.reverse rhs ∧
      Grows g n n' [] rest := by
  induction backwards generalizing n lhs made with
  | nil =>
    cases h
    exact ⟨_, _, rfl, .short (by simp), .refl hn⟩
  | cons last front ih =>
    by_cases hlength : 2 ≤ front.length
    · have hparts : 2 ≤ front.reverse.length := by rwa [List.length_reverse]
      have hfront : ∀ s ∈ front, Upright g n s := fun s hm => hs s (List.mem_cons_of_mem _ hm)
      have hf : Formed g n front.reverse :=
        .several hparts fun s hm => hfront s (List.mem_reverse.mp hm)
      rw [chain_cons hlength, ← wishOf_of_two_le hparts] at h
      rcases hname : n.name g (wishOf front.reverse) front.reverse with ⟨compound, n₁⟩
      rcases hrec : chain g compound front n₁ with ⟨made', n₂⟩
      simp only [hname, hrec] at h
      cases h
      obtain ⟨hextend, hsound, hlookup, -⟩ := sound_name hg hn hf hname
      obtain ⟨rhs, rest, rfl, hsplits, hgrows⟩ :=
        ih hsound (fun s hm => (hfront s hm).mono hextend) hrec
      refine ⟨_, _, rfl, ?_, grows_of_name hg hn hf hname hgrows hsplits⟩
      rw [List.reverse_cons]
      exact .long hparts (hgrows.extend _ _ hlookup)
    · have hshort : (last :: front).length ≤ 2 := by
        rw [List.length_cons]
        omega
      rw [chain_of_length_le hshort] at h
      cases h
      exact ⟨_, _, rfl, .short (by rwa [List.length_reverse]), .refl hn⟩

/-- Making, first of all, a main production. -/
theorem Grows.cons_main {p q : Production} {sources made : List Production}
    (h : Grows g n n' sources made) (hp : p ∈ g.productions) (hm : Main g n' p q) :
    Grows g n n' (p :: sources) (q :: made) := by
  have hkept : g.isSymbol q.lhs = true := by
    rw [Grammar.isSymbol_iff, Grammar.isNonterminal_iff]
    exact .inl ⟨p, hp, hm.1.symm⟩
  refine ⟨h.extend, h.sound, ?_, ?_, ?_⟩
  · intro s known hk
    obtain hk | ⟨r, hr, rfl⟩ := h.known s known hk
    · exact .inl hk
    · exact .inr ⟨r, List.mem_cons_of_mem _ hr, rfl⟩
  · intro r hr hfalse
    obtain rfl | hr := List.mem_cons.mp hr
    · rw [hkept] at hfalse
      cases hfalse
    · exact h.introduced r hr hfalse
  · rw [List.filter_cons, if_pos hkept]
    exact .cons hm h.mains

theorem occursRight_of_mem {p : Production} (hp : p ∈ g.productions) {s : Symbol} (hs : s ∈ p.rhs) :
    g.occursRight s = true := Grammar.occursRight_iff.mpr ⟨p, hp, hs⟩

theorem divide_grows (hg : Lacks g '|') (hn : Sound g n) {p : Production} (hp : p ∈ g.productions)
    {made : List Production} (h : divide g p n = (made, n')) : Grows g n n' [p] made := by
  rw [divide] at h
  by_cases hsize : p.size < 2
  · rw [if_pos hsize] at h
    cases h
    exact (Grows.refl hn).cons_main hp ⟨rfl, .inl ⟨hsize, rfl⟩⟩
  · rw [if_neg hsize] at h
    have hright : ∀ s ∈ p.rhs, g.occursRight s = true := fun s hs => occursRight_of_mem hp hs
    rcases hisolate : isolate g p.rhs n with ⟨dummies, parts, n₁⟩
    rcases hchain : chain g p.lhs parts.reverse n₁ with ⟨made', n₂⟩
    simp only [hisolate, hchain] at h
    cases h
    obtain ⟨hdummies, hstands⟩ := isolate_grows hg hn hright hisolate
    have hupright : ∀ u ∈ parts, Upright g n₁ u := by
      intro u hu
      obtain ⟨s, hs, hsu⟩ := exists_mem_left hstands hu
      exact hsu.upright (hright s hs)
    obtain ⟨rhs, rest, rfl, hsplits, hgrows⟩ :=
      chain_grows hg hdummies.sound (fun u hu => hupright u (List.mem_reverse.mp hu)) hchain
    rw [List.reverse_reverse] at hsplits
    have hmain : Main g n' p ⟨p.lhs, rhs⟩ :=
      ⟨rfl, .inr ⟨by omega, parts, hstands.imp fun _ _ hs => hs.mono hgrows.extend, hsplits⟩⟩
    exact hdummies.trans (hgrows.cons_main hp hmain)

theorem divideAll_grows (hg : Lacks g '|') (hn : Sound g n) {ps : List Production}
    (hps : ∀ p ∈ ps, p ∈ g.productions) {made : List Production}
    (h : divideAll g ps n = (made, n')) :
    Grows g n n' ps made := by
  induction ps generalizing n made with
  | nil =>
    cases h
    exact .refl hn
  | cons p rest ih =>
    rw [divideAll] at h
    rcases hdivide : divide g p n with ⟨made₁, n₁⟩
    rcases hrec : divideAll g rest n₁ with ⟨made₂, n₂⟩
    simp only [hdivide, hrec] at h
    cases h
    have hfirst := divide_grows hg hn (hps p List.mem_cons_self) hdivide
    exact hfirst.trans (ih hfirst.sound (fun q hq => hps q (List.mem_cons_of_mem _ hq)) hrec)

/-- A grammar explained by a naming: it has the main productions of the source, the productions that
define the known symbols, and no others. -/
structure Explains (g : Grammar) (n : Naming) (h : Grammar) : Prop where
  sound : Sound g n
  main : ∀ p ∈ g.productions, ∃ q ∈ h.productions, Main g n p q
  source : ∀ q ∈ h.productions, g.isSymbol q.lhs = true → ∃ p ∈ g.productions, Main g n p q
  definition : ∀ s parts, n.lookup s = some parts →
    ∃ rhs, Splits n parts rhs ∧ ⟨s, rhs⟩ ∈ h.productions
  introduced : ∀ q ∈ h.productions, g.isSymbol q.lhs = false →
    ∃ parts, n.lookup q.lhs = some parts ∧ Splits n parts q.rhs

/-- A conversion makes its productions along with its naming, and keeps the first of equal ones. -/
theorem exists_grows (hg : Lacks g '|') : ∃ n made,
    Grows g [] n g.productions made ∧ g.toWeakNormal.grammar.productions = made.eraseDups := by
  rcases hall : divideAll g g.productions [] with ⟨made, n⟩
  refine ⟨n, made, divideAll_grows hg (sound_nil g) (fun _ hp => hp) hall, ?_⟩
  rw [Grammar.toWeakNormal, Grammar.productions_ofProductions, hall]

/-- A naming that grew from nothing explains what was made meanwhile. -/
theorem Grows.explains {h : Grammar} {made : List Production}
    (hgrows : Grows g [] n g.productions made) (hmade : h.productions = made.eraseDups) :
    Explains g n h := by
  have hmem : ∀ q, q ∈ h.productions ↔ q ∈ made := by
    intro q
    rw [hmade, List.mem_eraseDups]
  refine ⟨hgrows.sound, ?_, ?_, ?_, ?_⟩
  · intro p hp
    obtain ⟨q, hq, hm⟩ := exists_mem_right hgrows.mains hp
    exact ⟨q, (hmem q).mpr (List.mem_filter.mp hq).1, hm⟩
  · intro q hq hs
    obtain ⟨p, hp, hm⟩ := exists_mem_left hgrows.mains
      (List.mem_filter.mpr ⟨(hmem q).mp hq, hs⟩)
    exact ⟨p, hp, hm⟩
  · intro s parts hl
    obtain hnil | ⟨q, hq, rfl⟩ := hgrows.known s parts hl
    · cases hnil
    · obtain ⟨known, hk, hsplits⟩ := hgrows.introduced q hq (hgrows.sound.consistent.isSymbol hl)
      obtain rfl : parts = known := Option.some.inj (hl.symm.trans hk)
      exact ⟨q.rhs, hsplits, (hmem q).mpr hq⟩
  · intro q hq hs
    exact hgrows.introduced q ((hmem q).mp hq) hs

/-- A conversion is explained by its final naming. -/
theorem exists_explains (hg : Lacks g '|') : ∃ n, Explains g n g.toWeakNormal.grammar := by
  obtain ⟨n, made, hgrows, hmade⟩ := exists_grows hg
  exact ⟨n, hgrows.explains hmade⟩

end Constituency.Conversion
