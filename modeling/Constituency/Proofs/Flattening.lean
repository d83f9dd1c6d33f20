import Constituency.Proofs.Converted
import Constituency.Proofs.Derivation
import Constituency.Proofs.Uniqueness
import Constituency.Tree.Flatten

/-!
Taking introduced symbols out of trees. A tree of the converted grammar flattens to trees of the
source that stand for what its symbol expands to. Every tree of the source arises in this way, and
no two trees with one symbol and different shapes flatten to trees of the same shape.
-/
namespace Constituency

open SyntaxTree

namespace SyntaxTree

variable {keep : Symbol → Bool}

/-- What a flattened tree is among its siblings. -/
def pieces (keep : Symbol → Bool) (t : Tree) : List Tree := (t.flatten keep).lift keep

@[simp] theorem flattenAll_cons (t : Tree) (ts : List Tree) :
    flattenAll keep (t :: ts) = pieces keep t ++ flattenAll keep ts := rfl

@[simp] theorem flattenAll_nil : flattenAll keep ([] : List Tree) = [] := rfl

theorem pieces_kept {l : Symbol} (hl : keep l = true) (s : Span) (ts : List Tree) :
    pieces keep (.branch l s ts) = [.branch l s (flattenAll keep ts)] := by
  rw [pieces, flatten, lift, if_pos hl]

theorem pieces_introduced {l : Symbol} (hl : keep l = false) (s : Span) (ts : List Tree) :
    pieces keep (.branch l s ts) = flattenAll keep ts := by
  rw [pieces, flatten, lift, if_neg (by simp [hl])]

end SyntaxTree

namespace Conversion

open Grammar

/-- A grammar and its conversion, over a sentence: no symbol and no token holds a space, every
right-hand side has a symbol, and the tokens are terminals or unknown. -/
structure Setting (g : Grammar) (n : Naming) (h : Grammar) (tokens : List String) : Prop where
  explains : Explains g n h
  clear : g.HasClearKeys
  left : ∀ p ∈ g.productions, SpaceFree p.lhs
  words : ∀ t ∈ tokens, SpaceFree t
  terminal : ∀ t ∈ tokens, g.isNonterminal (quote t) = false

variable {g h : Grammar} {n : Naming} {tokens : List String}

section Setting

variable (hs : Setting g n h tokens)

include hs

theorem Setting.mem_token {w : String} (hw : w ∈ tokens) {p : Production} :
    p ∈ h.byRhsKey (quote w) ↔ p ∈ h.productions ∧ p.rhs = [quote w] :=
  mem_byRhsKey_singleton (hs.explains.hasClearKeys hs.clear) (hs.words w hw).quote

theorem Setting.mem_unit {b : Symbol} (hb : h.isNonterminal b = true) {p : Production} :
    p ∈ h.byRhsKey b ↔ p ∈ h.productions ∧ p.rhs = [b] :=
  mem_byRhsKey_singleton (hs.explains.hasClearKeys hs.clear)
    (hs.explains.spaceFree_of_isNonterminal hs.clear hs.left hb)

theorem Setting.mem_binary {b c : Symbol} (hb : h.isNonterminal b = true)
    (hc : h.isNonterminal c = true) {p : Production} :
    p ∈ h.byRhsKey (rhsKey [b, c]) ↔ p ∈ h.productions ∧ p.rhs = [b, c] :=
  mem_byRhsKey_pair (hs.explains.hasClearKeys hs.clear)
    (hs.explains.spaceFree_of_isNonterminal hs.clear hs.left hb)
    (hs.explains.spaceFree_of_isNonterminal hs.clear hs.left hc)

omit hs in
theorem isNonterminal_of_spanTree {s : Symbol} {i j : Nat} {t : Tree}
    (ht : h.SpanTree tokens s i j t) :
    h.isNonterminal s = true := by
  cases ht with
  | token _ hp | unit hp _ | binary hp _ _ =>
    exact isNonterminal_of_mem_byRhsKey hp

/-- A branch over the pieces for its right-hand side becomes the pieces for its label. -/
theorem Setting.pieces_of_production {p : Production} (hp : p ∈ h.productions) {i j : Nat}
    {ts : List Tree} (hsymbols : (flattenAll g.isSymbol ts).map symbol = p.rhs.flatMap (expand n))
    (hlaid : g.Laid tokens i j (flattenAll g.isSymbol ts)) :
    (pieces g.isSymbol (.branch p.lhs ⟨i, j⟩ ts)).map symbol = expand n p.lhs ∧
      g.Laid tokens i j (pieces g.isSymbol (.branch p.lhs ⟨i, j⟩ ts)) := by
  cases hkeep : g.isSymbol p.lhs with
  | true =>
    rw [pieces_kept hkeep, hs.explains.sound.expand_of_isSymbol hkeep]
    refine ⟨rfl, .branch ?_ hlaid (.nil j)⟩
    rw [hsymbols]
    exact hs.explains.mem_source hp hkeep
  | false =>
    rw [pieces_introduced hkeep, hsymbols, hs.explains.flatMap_introduced hp hkeep]
    exact ⟨rfl, hlaid⟩

/-- A tree of the converted grammar flattens to trees of the source, which stand for what its symbol
expands to. -/
theorem Setting.pieces_of_spanTree {s : Symbol} {i j : Nat} {t : Tree}
    (ht : h.SpanTree tokens s i j t) :
    (pieces g.isSymbol t).map symbol = expand n s ∧ g.Laid tokens i j (pieces g.isSymbol t) := by
  induction ht with
  | @token i w p hw hp =>
    obtain ⟨hp, hrhs⟩ := (hs.mem_token (List.mem_of_getElem? hw)).mp hp
    have hsole := (hs.explains.sole hp hrhs).1
    refine hs.pieces_of_production hp ?_ (.leaf hw (.nil _))
    rw [hrhs, List.flatMap_singleton, hs.explains.sound.expand_of_isSymbol hsole]
    rfl
  | @unit i j b p u hp hb ih =>
    obtain ⟨hp, hrhs⟩ := (hs.mem_unit (isNonterminal_of_spanTree hb)).mp hp
    refine hs.pieces_of_production hp ?_ ?_
    · rw [flattenAll_cons, flattenAll_nil, List.append_nil, ih.1, hrhs, List.flatMap_singleton]
    · rw [flattenAll_cons, flattenAll_nil, List.append_nil]
      exact ih.2
  | @binary i k j b c p u v hp hb hc ihb ihc =>
    obtain ⟨hp, hrhs⟩ :=
      (hs.mem_binary (isNonterminal_of_spanTree hb) (isNonterminal_of_spanTree hc)).mp hp
    refine hs.pieces_of_production hp ?_ ?_
    · rw [flattenAll_cons, flattenAll_cons, flattenAll_nil, List.append_nil, List.map_append,
        ihb.1, ihc.1, hrhs, List.flatMap_cons, List.flatMap_singleton]
    · rw [flattenAll_cons, flattenAll_cons, flattenAll_nil, List.append_nil]
      exact ihb.2.append ihc.2

end Setting

/-- Trees of the converted grammar for a sequence of symbols, side by side, and their pieces. -/
inductive Realizes (g h : Grammar) (tokens : List String) :
    Nat → Nat → List Symbol → List Tree → Prop
  | nil (i : Nat) : Realizes g h tokens i i [] []
  | cons {i k j : Nat} {s : Symbol} {t : Tree} {ss : List Symbol} {ts : List Tree}
      (ht : h.SpanTree tokens s i k t) (hts : Realizes g h tokens k j ss ts) :
      Realizes g h tokens i j (s :: ss) (pieces g.isSymbol t ++ ts)

theorem Realizes.append_inv {i j : Nat} {ss us : List Symbol} {ts : List Tree}
    (hr : Realizes g h tokens i j (ss ++ us) ts) : ∃ k xs ys, ts = xs ++ ys ∧
      Realizes g h tokens i k ss xs ∧ Realizes g h tokens k j us ys := by
  induction ss generalizing i ts with
  | nil => exact ⟨i, [], ts, rfl, .nil i, hr⟩
  | cons s ss ih =>
    cases hr with
    | @cons _ k _ _ t _ rest ht hts =>
      obtain ⟨l, xs, ys, rfl, hxs, hys⟩ := ih hts
      exact ⟨l, pieces g.isSymbol t ++ xs, ys, by rw [List.append_assoc], .cons ht hxs, hys⟩

theorem Realizes.singleton_inv {i j : Nat} {s : Symbol} {ts : List Tree}
    (hr : Realizes g h tokens i j [s] ts) :
    ∃ t, h.SpanTree tokens s i j t ∧ ts = pieces g.isSymbol t := by
  cases hr with
  | cons ht hts =>
    cases hts
    exact ⟨_, ht, List.append_nil _⟩

section Setting

variable (hs : Setting g n h tokens)

include hs

/-- Trees for two or more parts can be put together in pairs, as the parts are. -/
theorem Setting.split_of_realizes {parts rhs : List Symbol} (hsplits : Splits n parts rhs)
    (hlength : 2 ≤ parts.length) {i j : Nat} {ts : List Tree}
    (hr : Realizes g h tokens i j parts ts) :
    ∃ k b c t u, rhs = [b, c] ∧ h.SpanTree tokens b i k t ∧ h.SpanTree tokens c k j u ∧
      ts = pieces g.isSymbol t ++ pieces g.isSymbol u := by
  induction hm : parts.length using Nat.strongRecOn generalizing parts rhs i j ts with
  | ind m ih =>
    cases hsplits with
    | short htwo =>
      match parts, hlength, htwo, hr with
      | [b, c], _, _, hr =>
        have hpair : Realizes g h tokens i j ([b] ++ [c]) ts := hr
        obtain ⟨k, xs, ys, rfl, hb, hc⟩ := hpair.append_inv
        obtain ⟨t, ht, rfl⟩ := hb.singleton_inv
        obtain ⟨u, hu, rfl⟩ := hc.singleton_inv
        exact ⟨k, b, c, t, u, rfl, ht, hu, rfl⟩
    | @long front compound last hfront hl =>
      rw [List.length_append, List.length_singleton] at hm
      obtain ⟨k, xs, ys, rfl, hxs, hys⟩ := hr.append_inv
      obtain ⟨u, hu, rfl⟩ := hys.singleton_inv
      obtain ⟨rhs, hsplits, hp⟩ := hs.explains.definition compound front hl
      obtain ⟨l, b, c, t, v, rfl, ht, hv, rfl⟩ := ih front.length (by omega) hsplits hfront hxs rfl
      have hkey : ⟨compound, [b, c]⟩ ∈ h.byRhs [b, c] := mem_byRhs hp rfl
      have hnew : g.isSymbol compound = false := hs.explains.sound.consistent.isSymbol hl
      refine ⟨k, compound, last, _, u, rfl, .binary hkey ht hv, hu, ?_⟩
      rw [pieces_introduced hnew, flattenAll_cons, flattenAll_cons, flattenAll_nil, List.append_nil]

/-- A branch of the source is made by the main production over trees for the symbols in it. -/
theorem Setting.spanTree_of_production {l : Symbol} {us : List Tree}
    (hp : ⟨l, us.map symbol⟩ ∈ g.productions) {i k : Nat} (hus : g.Laid tokens i k us)
    (hr : ∀ parts, List.Forall₂ (Stands g n) (us.map symbol) parts →
      Realizes g h tokens i k parts us) :
    ∃ t, h.SpanTree tokens l i k t ∧ pieces g.isSymbol t = [.branch l ⟨i, k⟩ us] := by
  have hkeep : g.isSymbol l = true := isSymbol_of_isNonterminal (isNonterminal_lhs hp)
  obtain ⟨q, hq, rfl, hshape⟩ := hs.explains.main _ hp
  obtain ⟨hsize, hrhs⟩ | ⟨hsize, parts, hstands, hsplits⟩ := hshape
  · rw [Production.size, List.length_map] at hsize
    obtain _ | ⟨c, _ | ⟨d, rest⟩⟩ := us
    · exact absurd rfl (hs.clear _ hp).1
    · cases hus with
      | leaf hw hnil =>
        cases hnil
        have hkey : q ∈ h.byRhs [quote _] := mem_byRhs hq hrhs
        exact ⟨_, .token hw hkey, pieces_kept hkeep _ _⟩
      | @branch _ _ _ m vs _ hvs _ hnil =>
        cases hnil
        have hnon : g.isNonterminal m = true := isNonterminal_lhs hvs
        obtain ⟨t, ht, hpieces⟩ := (hr [m] (.cons (.inr ⟨hnon, rfl⟩) .nil)).singleton_inv
        have hkey : q ∈ h.byRhs [m] := mem_byRhs hq hrhs
        refine ⟨_, .unit hkey ht, ?_⟩
        rw [pieces_kept hkeep, flattenAll_cons, flattenAll_nil, List.append_nil, ← hpieces]
    · simp only [List.length_cons] at hsize
      omega
  · have hlength := Main.length_parts hsize hstands
    obtain ⟨m, b, c, t, u, hrhs, ht, hu, rfl⟩ :=
      hs.split_of_realizes hsplits hlength (hr parts hstands)
    have hkey : q ∈ h.byRhs [b, c] := mem_byRhs hq hrhs
    refine ⟨_, .binary hkey ht hu, ?_⟩
    rw [pieces_kept hkeep, flattenAll_cons, flattenAll_cons, flattenAll_nil, List.append_nil]

/-- Trees of the source are the pieces of trees of the converted grammar, for whatever stands for
their symbols. -/
theorem Setting.realizes_of_laid {i j : Nat} {ts : List Tree} (hlaid : g.Laid tokens i j ts)
    {parts : List Symbol} (hstands : List.Forall₂ (Stands g n) (ts.map symbol) parts) :
    Realizes g h tokens i j parts ts := by
  induction hlaid generalizing parts with
  | nil i =>
    cases hstands
    exact .nil i
  | @leaf i j w ts hw _ ih =>
    cases hstands with
    | @cons _ u _ rest hu hrest =>
      obtain ⟨ht, hl⟩ | ⟨hnon, -⟩ := hu
      · obtain ⟨rhs, hsplits, hp⟩ := hs.explains.definition u _ hl
        obtain rfl := hsplits.eq_of_length_le (by simp)
        have hkey : ⟨u, [quote w]⟩ ∈ h.byRhs [quote w] := mem_byRhs hp rfl
        have hnew : g.isSymbol u = false := hs.explains.sound.consistent.isSymbol hl
        have hpieces := Realizes.cons (.token hw hkey) (ih hrest)
        rwa [pieces_introduced hnew] at hpieces
      · rw [symbol, hs.terminal w (List.mem_of_getElem? hw)] at hnon
        cases hnon
  | @branch i k j l us ts hp hus _ ihus ih =>
    cases hstands with
    | @cons _ u _ rest hu hrest =>
      have hnon : g.isNonterminal l = true := isNonterminal_lhs hp
      obtain ⟨ht, -⟩ | ⟨-, rfl⟩ := hu
      · rw [isTerminal, symbol, hnon] at ht
        cases ht
      · obtain ⟨t, ht, hpieces⟩ := hs.spanTree_of_production hp hus fun _ => ihus
        have hr := Realizes.cons ht (ih hrest)
        rwa [hpieces] at hr

/-- Every tree of the source comes from a tree of the converted grammar. -/
theorem Setting.exists_spanTree {i j : Nat} {l : Symbol} {s : Span} {us : List Tree}
    (hlaid : g.Laid tokens i j [.branch l s us]) :
    ∃ t, h.SpanTree tokens l i j t ∧ pieces g.isSymbol t = [.branch l s us] := by
  cases hlaid with
  | branch hp hus hnil =>
    cases hnil
    exact hs.spanTree_of_production hp hus fun _ => hs.realizes_of_laid hus

end Setting

end Conversion

end Constituency
