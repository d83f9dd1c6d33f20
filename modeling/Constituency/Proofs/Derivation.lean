import Constituency.Grammar.Basic
import Constituency.Proofs.Shape
import Constituency.Proofs.Spanning

/-!
Derivation trees of a sentence. Every branch rewrites to its children by a production, and its span
is that of its leaves, which are the tokens in order. The same trees can be built from the left to
the right, each over its own stretch of the sentence next to the one before; this reading has an
induction over a tree and what stands to its right.
-/
namespace Constituency

open SyntaxTree

/-- From where the first leaf starts to where the last one stops. -/
def extent (leaves : List (String × Span)) : Option Span :=
  match leaves.head?, leaves.getLast? with
  | some first, some last => some ⟨first.2.start, last.2.stop⟩
  | _, _ => none

/-- Every branch rewrites to its children by a production and has the span of its leaves. -/
inductive Justified (g : Grammar) : Tree → Prop
  | leaf (w : String) (s : Span) : Justified g (.leaf w s)
  | branch {l : Symbol} {s : Span} {ts : List Tree} (hp : ⟨l, ts.map symbol⟩ ∈ g.productions)
      (hs : extent (leavesAll ts) = some s) (hts : ∀ t ∈ ts, Justified g t) :
      Justified g (.branch l s ts)

/-- The tokens as leaves, each over its own position. -/
def tokenLeaves (tokens : List String) : List (String × Span) :=
  tokens.zipIdx.map fun t => (t.1, ⟨t.2, t.2 + 1⟩)

/-- A tree of the grammar for a sentence: its root is labelled with the start symbol, its leaves are
the tokens, and every branch is justified. -/
structure IsDerivation (g : Grammar) (tokens : List String) (t : Tree) : Prop where
  root : ∃ s ts, t = .branch g.start s ts
  leaves : t.leaves = tokenLeaves tokens
  justified : Justified g t

/-- Trees side by side over the tokens from one position up to another, every branch with a
production over its children. -/
inductive Grammar.Laid (g : Grammar) (tokens : List String) : Nat → Nat → List Tree → Prop
  | nil (i : Nat) : Laid g tokens i i []
  | leaf {i j : Nat} {w : String} {ts : List Tree} (hw : tokens[i]? = some w)
      (h : Laid g tokens (i + 1) j ts) : Laid g tokens i j (.leaf w ⟨i, i + 1⟩ :: ts)
  | branch {i k j : Nat} {l : Symbol} {us ts : List Tree} (hp : ⟨l, us.map symbol⟩ ∈ g.productions)
      (hus : Laid g tokens i k us) (h : Laid g tokens k j ts) :
      Laid g tokens i j (.branch l ⟨i, k⟩ us :: ts)

namespace Grammar

variable {g : Grammar} {tokens : List String}

theorem Laid.append {i k j : Nat} {ts us : List Tree} (ht : g.Laid tokens i k ts)
    (hu : g.Laid tokens k j us) : g.Laid tokens i j (ts ++ us) := by
  induction ht with
  | nil => exact hu
  | leaf hw _ ih => exact .leaf hw (ih hu)
  | branch hp hus _ _ ih => exact .branch hp hus (ih hu)

theorem length_tokenLeaves (tokens : List String) :
    (tokenLeaves tokens).length = tokens.length := by
  simp [tokenLeaves]

theorem getElem?_tokenLeaves {i : Nat} {x : String × Span} :
    (tokenLeaves tokens)[i]? = some x ↔ ∃ w, tokens[i]? = some w ∧ x = (w, ⟨i, i + 1⟩) := by
  rw [tokenLeaves, List.getElem?_map, List.getElem?_zipIdx, Option.map_map, Option.map_eq_some_iff,
    Nat.zero_add]
  exact exists_congr fun w => and_congr_right fun _ => eq_comm

/-- The leaves of trees side by side are the tokens below them. -/
theorem Laid.leavesAll {i j : Nat} {ts : List Tree} (h : g.Laid tokens i j ts) :
    i ≤ j ∧ leavesAll ts = part (tokenLeaves tokens) i j := by
  induction h with
  | nil i => exact ⟨Nat.le_refl i, by simp [SyntaxTree.leavesAll, part]⟩
  | @leaf i j w ts hw _ ih =>
    have hleaf : part (tokenLeaves tokens) i (i + 1) = [(w, ⟨i, i + 1⟩)] :=
      part_singleton (getElem?_tokenLeaves.mpr ⟨w, hw, rfl⟩)
    refine ⟨by omega, ?_⟩
    rw [SyntaxTree.leavesAll, leaves, ih.2, ← hleaf, part_append _ (by omega) ih.1]
  | branch _ _ _ ihus ih =>
    refine ⟨by omega, ?_⟩
    rw [SyntaxTree.leavesAll, leaves, ihus.2, ih.2, part_append _ ihus.1 ih.1]

/-- Without empty productions every tree has a leaf. -/
theorem Laid.lt (hempty : ∀ p ∈ g.productions, p.rhs ≠ []) {i j : Nat} {ts : List Tree}
    (h : g.Laid tokens i j ts) (hts : ts ≠ []) : i < j ∧ j ≤ tokens.length := by
  induction h with
  | nil => exact absurd rfl hts
  | @leaf i j w ts hw h ih =>
    have hi := (List.getElem?_eq_some_iff.mp hw).1
    cases ts with
    | nil =>
      cases h
      omega
    | cons t ts =>
      have := ih (List.cons_ne_nil t ts)
      omega
  | @branch i k j l us ts hp hus h ihus ih =>
    have hne : us ≠ [] := by
      rintro rfl
      exact hempty _ hp rfl
    have hik := ihus hne
    cases ts with
    | nil =>
      cases h
      exact hik
    | cons t ts =>
      have := ih (List.cons_ne_nil t ts)
      omega

theorem extent_part {i j : Nat} (hi : i < j) (hj : j ≤ tokens.length) :
    extent (part (tokenLeaves tokens) i j) = some ⟨i, j⟩ := by
  obtain ⟨k, rfl⟩ : ∃ k, j = k + 1 := ⟨j - 1, by omega⟩
  have hfirst : part (tokenLeaves tokens) i (i + 1) = [(tokens[i], ⟨i, i + 1⟩)] :=
    part_singleton (getElem?_tokenLeaves.mpr ⟨_, List.getElem?_eq_getElem (by omega), rfl⟩)
  have hlast : part (tokenLeaves tokens) k (k + 1) = [(tokens[k], ⟨k, k + 1⟩)] :=
    part_singleton (getElem?_tokenLeaves.mpr ⟨_, List.getElem?_eq_getElem (by omega), rfl⟩)
  have hhead : (part (tokenLeaves tokens) i (k + 1)).head? = some (tokens[i], ⟨i, i + 1⟩) := by
    rw [← part_append _ (Nat.le_succ i) hi, hfirst]
    rfl
  have htail : (part (tokenLeaves tokens) i (k + 1)).getLast? = some (tokens[k], ⟨k, k + 1⟩) := by
    rw [← part_append _ (Nat.le_of_lt_succ hi) (Nat.le_succ k), hlast]
    exact List.getLast?_concat
  rw [extent, hhead, htail]

theorem Laid.justified (hempty : ∀ p ∈ g.productions, p.rhs ≠ []) {i j : Nat} {ts : List Tree}
    (h : g.Laid tokens i j ts) : ∀ t ∈ ts, Justified g t := by
  induction h with
  | nil => simp
  | leaf _ _ ih =>
    intro t ht
    obtain rfl | ht := List.mem_cons.mp ht
    · exact .leaf _ _
    · exact ih t ht
  | @branch i k j l us ts hp hus _ ihus ih =>
    intro t ht
    obtain rfl | ht := List.mem_cons.mp ht
    · have hne : us ≠ [] := by
        rintro rfl
        exact hempty _ hp rfl
      have hik := hus.lt hempty hne
      refine .branch hp ?_ ihus
      rw [hus.leavesAll.2, extent_part hik.1 hik.2]
    · exact ih t ht

theorem part_eq_append {α : Type} {w xs ys : List α} {i j : Nat} (hi : i ≤ j) (hj : j ≤ w.length)
    (h : xs ++ ys = part w i j) :
    i + xs.length ≤ j ∧ xs = part w i (i + xs.length) ∧ ys = part w (i + xs.length) j := by
  have hlength := congrArg List.length h
  rw [List.length_append, length_part] at hlength
  have hle : i + xs.length ≤ j := by omega
  rw [← part_append w (Nat.le_add_right i xs.length) hle] at h
  obtain ⟨hx, hy⟩ := List.append_inj h (by rw [length_part]; omega)
  exact ⟨hle, hx, hy⟩

mutual

/-- A justified tree over consecutive tokens can be laid over them. -/
theorem laid_of_justified : (t : Tree) → Justified g t → {i j : Nat} → i ≤ j → j ≤ tokens.length →
    t.leaves = part (tokenLeaves tokens) i j → g.Laid tokens i j [t]
  | .leaf w s, _, i, j, hi, hj, h => by
    have hlength := congrArg List.length h
    rw [leaves, List.length_singleton, length_part, length_tokenLeaves] at hlength
    obtain rfl : j = i + 1 := by omega
    have hmem : (tokenLeaves tokens)[i]? = some (w, s) := by
      have hx := List.getElem?_eq_getElem (l := tokenLeaves tokens) (i := i)
        (by rw [length_tokenLeaves]; omega)
      rw [leaves, part_singleton hx] at h
      rw [hx, ← List.singleton_inj.mp h]
    obtain ⟨v, hv, heq⟩ := getElem?_tokenLeaves.mp hmem
    obtain ⟨rfl, rfl⟩ := Prod.mk.inj heq
    exact .leaf hv (.nil _)
  | .branch l s ts, hjust, i, j, hi, hj, h => by
    cases hjust with
    | branch hp hs hts =>
      rw [leaves] at h
      have hlaid := laidAll_of_justified ts hts hi hj h
      have hlt : i < j := by
        by_contra hnot
        obtain rfl : i = j := by omega
        rw [h, part, Nat.sub_self, List.take_zero] at hs
        cases hs
      rw [h, extent_part hlt hj] at hs
      obtain rfl := Option.some.inj hs
      exact .branch hp hlaid (.nil _)

theorem laidAll_of_justified : (ts : List Tree) → (∀ t ∈ ts, Justified g t) → {i j : Nat} → i ≤ j →
    j ≤ tokens.length → leavesAll ts = part (tokenLeaves tokens) i j → g.Laid tokens i j ts
  | [], _, i, j, hi, hj, h => by
    have hlength := congrArg List.length h
    rw [leavesAll, List.length_nil, length_part, length_tokenLeaves] at hlength
    obtain rfl : i = j := by omega
    exact .nil _
  | t :: ts, hts, i, j, hi, hj, h => by
    rw [leavesAll] at h
    obtain ⟨hle, ht, hrest⟩ := part_eq_append hi (by rw [length_tokenLeaves]; exact hj) h
    have hfirst := laid_of_justified t (hts t List.mem_cons_self) (Nat.le_add_right i _)
      (Nat.le_trans hle hj) ht
    have hsecond :=
      laidAll_of_justified ts (fun u hu => hts u (List.mem_cons_of_mem _ hu)) hle hj hrest
    exact hfirst.append hsecond

end

/-- A derivation tree is a branch for the start symbol laid over the whole sentence. -/
theorem isDerivation_iff (hempty : ∀ p ∈ g.productions, p.rhs ≠ []) {t : Tree} :
    IsDerivation g tokens t ↔ (∃ s ts, t = .branch g.start s ts) ∧
      g.Laid tokens 0 tokens.length [t] := by
  have hall : part (tokenLeaves tokens) 0 tokens.length = tokenLeaves tokens := by
    rw [← length_tokenLeaves, part_all]
  constructor
  · intro ⟨hroot, hleaves, hjust⟩
    exact ⟨hroot, laid_of_justified t hjust (Nat.zero_le _) (Nat.le_refl _) (by rw [hall, hleaves])⟩
  · intro ⟨hroot, hlaid⟩
    refine ⟨hroot, ?_, hlaid.justified hempty t List.mem_cons_self⟩
    have hleaves := hlaid.leavesAll.2
    rwa [hall, SyntaxTree.leavesAll, SyntaxTree.leavesAll, List.append_nil] at hleaves

end Grammar

end Constituency
