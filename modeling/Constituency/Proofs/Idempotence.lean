import Constituency.Proofs.Converted
import Constituency.Proofs.Termination

/-!
Converting what is converted already. A conversion leaves a production as it is when its right-hand
side is empty or has an allowed shape, and asks for no name then. All productions that a conversion
makes are such, so a second conversion changes nothing, and neither does a first one of a grammar in
weak normal form. What keeps the converted grammar from weak normal form are the empty productions
of the source.
-/
namespace Constituency

namespace Conversion

open Grammar

variable {g h : Grammar} {n : Naming}

/-- A conversion has nothing to divide: there is nothing on the right, or an allowed shape. -/
def Indivisible (g : Grammar) (p : Production) : Prop := p.rhs = [] ∨ g.allowsShape p = true

/-- Among nonterminals there is nothing to isolate. -/
theorem isolate_of_nonterminals {rhs : List Symbol} (hrhs : ∀ s ∈ rhs, g.isNonterminal s = true) :
    isolate g rhs n = ([], rhs, n) := by
  induction rhs with
  | nil => rfl
  | cons s rest ih =>
    rw [List.forall_mem_cons] at hrhs
    have ht : ¬ g.isTerminal s = true := by simp [isTerminal, hrhs.1]
    rw [isolate, if_neg ht, ih hrhs.2]

theorem divide_of_indivisible {p : Production} (hp : Indivisible g p) :
    divide g p n = ([p], n) := by
  obtain ⟨lhs, rhs⟩ := p
  rw [Indivisible, allowsShape_iff] at hp
  obtain rfl | ⟨s, rfl⟩ | ⟨b, c, rfl, hb, hc⟩ := hp
  · rfl
  · rfl
  · have hisolate : isolate g [b, c] n = ([], [b, c], n) :=
      isolate_of_nonterminals (by simp [hb, hc])
    simp [divide, Production.size, hisolate, chain]

theorem divideAll_of_indivisible {ps : List Production} (hps : ∀ p ∈ ps, Indivisible g p) :
    divideAll g ps n = (ps, n) := by
  induction ps with
  | nil => rfl
  | cons p rest ih =>
    rw [List.forall_mem_cons] at hps
    simp only [divideAll, divide_of_indivisible hps.1, ih hps.2, List.singleton_append]

/-- A grammar without productions to divide is its own conversion. -/
theorem toWeakNormal_of_indivisible (hg : ∀ p ∈ g.productions, Indivisible g p) :
    g.toWeakNormal = ⟨g, g⟩ := by
  rw [toWeakNormal, divideAll_of_indivisible hg, ofProductions_productions]

/-- A conversion leaves no production to divide. -/
theorem Explains.indivisible (he : Explains g n h) : ∀ q ∈ h.productions, Indivisible h q := by
  intro q hq
  obtain hshape | ⟨hnil, -⟩ := he.allowsShape_or_empty hq
  · exact .inr hshape
  · exact .inl hnil

end Conversion

open Conversion in
/-- Conversion ends, in weak normal form unless the source has an empty production. Converting once
more ends too and changes nothing, and a grammar in weak normal form is its own conversion. -/
theorem toWeakNormal_idempotent {g : Grammar}
    (hbar : ∀ p ∈ g.productions, ∀ s ∈ p.rhs, '|' ∉ s.toList) :
    let h := g.toWeakNormal.grammar
    (∀ c, g.Converts c ↔ c = g.toWeakNormal) ∧
    (h.isWeakNormal = true ↔ ∀ p ∈ g.productions, p.rhs ≠ []) ∧
    (∀ c, h.Converts c ↔ c = h.toWeakNormal) ∧ h.toWeakNormal.grammar = h ∧
    (g.isWeakNormal = true → h = g) := by
  intro h
  obtain ⟨n, he⟩ := exists_explains hbar
  refine ⟨fun c => Grammar.converts_iff hbar, he.isWeakNormal_iff, fun c => ?_, ?_, fun hweak => ?_⟩
  · exact Grammar.converts_iff (he.lacks hbar (by decide))
  · rw [toWeakNormal_of_indivisible he.indivisible]
  · have hg : ∀ p ∈ g.productions, Indivisible g p :=
      fun p hp => .inr (List.all_eq_true.mp hweak p hp)
    change g.toWeakNormal.grammar = g
    rw [toWeakNormal_of_indivisible hg]

/-- An empty production, a name that is taken, and a chain over terminals. -/
theorem toWeakNormal_idempotent_empty :
    let g := Grammar.ofProductions "S"
      [⟨"S", ["A", "x", "A", "B"]⟩, ⟨"A+x", []⟩, ⟨"A", ["x"]⟩, ⟨"B", ["A+x", "x"]⟩]
    let h := g.toWeakNormal.grammar
    (∀ c, g.Converts c ↔ c = g.toWeakNormal) ∧
    (h.isWeakNormal = true ↔ ∀ p ∈ g.productions, p.rhs ≠ []) ∧
    (∀ c, h.Converts c ↔ c = h.toWeakNormal) ∧ h.toWeakNormal.grammar = h ∧
    (g.isWeakNormal = true → h = g) :=
  toWeakNormal_idempotent (by decide +kernel)

end Constituency
