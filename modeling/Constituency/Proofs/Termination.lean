import Constituency.Proofs.Division
import Constituency.Proofs.Requests

/-!
Conversion with requests for names that have no limit. The relations say what each part of a
conversion ends with. As long as the wishes hold no bar every request ends, so the conversion ends,
and it ends with what the bounded search for names gives.
-/
namespace Constituency

namespace Conversion

/-- Isolating the terminals of a right-hand side ends with these productions, this right-hand side
and this naming. -/
inductive Isolates (g : Grammar) :
    List Symbol → Naming → List Production → List Symbol → Naming → Prop
  | nil {n : Naming} : Isolates g [] n [] [] n
  | terminal {s dummy : Symbol} {rest rhs : List Symbol} {n n₁ n₂ : Naming} {made : List Production}
      (ht : g.isTerminal s = true) (hname : Naming.Requests g n [s] (unquote s) (dummy, n₁))
      (hrest : Isolates g rest n₁ made rhs n₂) :
      Isolates g (s :: rest) n (⟨dummy, [s]⟩ :: made) (dummy :: rhs) n₂
  | other {s : Symbol} {rest rhs : List Symbol} {n n' : Naming} {made : List Production}
      (ht : g.isTerminal s = false) (hrest : Isolates g rest n made rhs n') :
      Isolates g (s :: rest) n made (s :: rhs) n'

/-- The chain to a right-hand side, given last symbol first, ends with these productions and this
naming. -/
inductive Chains (g : Grammar) : Symbol → List Symbol → Naming → List Production → Naming → Prop
  | short {lhs : Symbol} {rhs : List Symbol} {n : Naming} (hlength : rhs.length ≤ 2) :
      Chains g lhs rhs n [⟨lhs, rhs.reverse⟩] n
  | long {lhs last compound : Symbol} {front : List Symbol} {n n₁ n₂ : Naming}
      {made : List Production} (hlength : 2 ≤ front.length)
      (hname : Naming.Requests g n front.reverse (joinWith "+" front.reverse) (compound, n₁))
      (hrest : Chains g compound front n₁ made n₂) :
      Chains g lhs (last :: front) n (⟨lhs, [compound, last]⟩ :: made) n₂

/-- Dividing one production ends with these productions and this naming. -/
inductive Divides (g : Grammar) (p : Production) (n : Naming) : List Production → Naming → Prop
  | short (hsize : p.size < 2) : Divides g p n [p] n
  | long {dummies made : List Production} {rhs : List Symbol} {n₁ n₂ : Naming} (hsize : 2 ≤ p.size)
      (hisolate : Isolates g p.rhs n dummies rhs n₁)
      (hchain : Chains g p.lhs rhs.reverse n₁ made n₂) :
      Divides g p n (dummies ++ made) n₂

/-- Dividing productions in order ends with these productions and this naming. -/
inductive DividesAll (g : Grammar) : List Production → Naming → List Production → Naming → Prop
  | nil {n : Naming} : DividesAll g [] n [] n
  | cons {p : Production} {rest made made' : List Production} {n n₁ n₂ : Naming}
      (hfirst : Divides g p n made n₁) (hrest : DividesAll g rest n₁ made' n₂) :
      DividesAll g (p :: rest) n (made ++ made') n₂

variable {g : Grammar} {n n' : Naming}

theorem Isolates.not_mem {c : Char} (hc : c ∉ "DUMMY_".toList) {symbols rhs : List Symbol}
    {made : List Production} (h : Isolates g symbols n made rhs n')
    (hs : ∀ s ∈ symbols, c ∉ s.toList) :
    ∀ s ∈ rhs, c ∉ s.toList := by
  induction h with
  | nil => exact hs
  | terminal _ hname _ ih =>
    rw [List.forall_mem_cons] at hs ⊢
    exact ⟨hname.not_mem hc (not_mem_unquote hs.1), ih hs.2⟩
  | other _ _ ih =>
    rw [List.forall_mem_cons] at hs ⊢
    exact ⟨hs.1, ih hs.2⟩

/-- Isolating ends, since the wish for a terminal holds no bar where the terminal holds none. -/
theorem isolates_iff {symbols : List Symbol} (hbar : ∀ s ∈ symbols, '|' ∉ s.toList)
    {made : List Production} {rhs : List Symbol} :
    Isolates g symbols n made rhs n' ↔ isolate g symbols n = (made, rhs, n') := by
  induction symbols generalizing n made rhs with
  | nil =>
    constructor
    · intro h
      cases h
      rfl
    · intro h
      cases h
      exact .nil
  | cons s rest ih =>
    rw [List.forall_mem_cons] at hbar
    have hwish : '|' ∉ (unquote s).toList := not_mem_unquote hbar.1
    rw [isolate]
    cases ht : g.isTerminal s with
    | true =>
      rw [if_pos rfl]
      constructor
      · intro h
        cases h with
        | terminal _ hname hrest =>
          simp only [← (Naming.requests_iff hwish).mp hname, (ih hbar.2).mp hrest]
        | other hno _ => cases hno.symm.trans ht
      · intro h
        cases h
        exact .terminal ht ((Naming.requests_iff hwish).mpr rfl) ((ih hbar.2).mpr rfl)
    | false =>
      rw [if_neg Bool.false_ne_true]
      constructor
      · intro h
        cases h with
        | terminal hyes _ _ => cases hyes.symm.trans ht
        | other _ hrest => simp only [(ih hbar.2).mp hrest]
      · intro h
        cases h
        exact .other ht ((ih hbar.2).mpr rfl)

theorem chains_iff_of_length_le {lhs : Symbol} {rhs : List Symbol} (hlength : rhs.length ≤ 2)
    {made : List Production} : Chains g lhs rhs n made n' ↔ chain g lhs rhs n = (made, n') := by
  rw [chain_of_length_le hlength]
  constructor
  · intro h
    cases h with
    | short _ => rfl
    | long hfront _ _ =>
      rw [List.length_cons] at hlength
      omega
  · intro h
    cases h
    exact .short hlength

/-- A chain ends, since joining symbols adds no bar. -/
theorem chains_iff {lhs : Symbol} {backwards : List Symbol} (hbar : ∀ s ∈ backwards, '|' ∉ s.toList)
    {made : List Production} :
    Chains g lhs backwards n made n' ↔ chain g lhs backwards n = (made, n') := by
  induction backwards generalizing n lhs made with
  | nil => exact chains_iff_of_length_le (by simp)
  | cons last front ih =>
    by_cases hlength : 2 ≤ front.length
    · have hfront : ∀ s ∈ front, '|' ∉ s.toList := fun s hs => hbar s (List.mem_cons_of_mem _ hs)
      have hwish : '|' ∉ (joinWith "+" front.reverse).toList :=
        not_mem_joinWith (by decide) fun s hs => hfront s (List.mem_reverse.mp hs)
      rw [chain_cons hlength]
      constructor
      · intro h
        cases h with
        | short hshort =>
          rw [List.length_cons] at hshort
          omega
        | long _ hname hrest =>
          simp only [← (Naming.requests_iff hwish).mp hname, (ih hfront).mp hrest]
      · intro h
        cases h
        exact .long hlength ((Naming.requests_iff hwish).mpr rfl) ((ih hfront).mpr rfl)
    · apply chains_iff_of_length_le
      rw [List.length_cons]
      omega

theorem divides_iff {p : Production} (hbar : ∀ s ∈ p.rhs, '|' ∉ s.toList) {made : List Production} :
    Divides g p n made n' ↔ divide g p n = (made, n') := by
  rw [divide]
  by_cases hsize : p.size < 2
  · rw [if_pos hsize]
    constructor
    · intro h
      cases h with
      | short _ => rfl
      | long hlong _ _ => omega
    · intro h
      cases h
      exact .short hsize
  · rw [if_neg hsize]
    rcases hisolate : isolate g p.rhs n with ⟨dummies, rhs, n₁⟩
    have hisolates := (isolates_iff hbar).mpr hisolate
    -- the chain is over names, which hold no bar either
    have hbackwards : ∀ s ∈ rhs.reverse, '|' ∉ s.toList := fun s hs =>
      hisolates.not_mem (by decide) hbar s (List.mem_reverse.mp hs)
    constructor
    · intro h
      cases h with
      | short hshort => omega
      | long _ hisolates' hchain =>
        obtain ⟨rfl, rfl, rfl⟩ : _ ∧ _ ∧ _ := by
          simpa using hisolate.symm.trans ((isolates_iff hbar).mp hisolates')
        simp only [(chains_iff hbackwards).mp hchain]
    · intro h
      cases h
      exact .long (by omega) hisolates ((chains_iff hbackwards).mpr rfl)

theorem dividesAll_iff {ps : List Production} (hbar : ∀ p ∈ ps, ∀ s ∈ p.rhs, '|' ∉ s.toList)
    {made : List Production} : DividesAll g ps n made n' ↔ divideAll g ps n = (made, n') := by
  induction ps generalizing n made with
  | nil =>
    constructor
    · intro h
      cases h
      rfl
    · intro h
      cases h
      exact .nil
  | cons p rest ih =>
    rw [List.forall_mem_cons] at hbar
    rw [divideAll]
    constructor
    · intro h
      cases h with
      | cons hfirst hrest => simp only [(divides_iff hbar.1).mp hfirst, (ih hbar.2).mp hrest]
    · intro h
      cases h
      exact .cons ((divides_iff hbar.1).mpr rfl) ((ih hbar.2).mpr rfl)

end Conversion

open Conversion

/-- Converting the grammar ends with `c`. -/
def Grammar.Converts (g : Grammar) (c : Conversion) : Prop :=
  ∃ made n, DividesAll g g.productions [] made n ∧ c = ⟨g, .ofProductions g.start made⟩

/-- Conversion ends, in one way, when no right-hand side holds a bar. -/
theorem Grammar.converts_iff {g : Grammar} (hbar : ∀ p ∈ g.productions, ∀ s ∈ p.rhs, '|' ∉ s.toList)
    {c : Conversion} : g.Converts c ↔ c = g.toWeakNormal := by
  constructor
  · rintro ⟨made, n, hall, rfl⟩
    rw [toWeakNormal, (dividesAll_iff hbar).mp hall]
  · rintro rfl
    exact ⟨_, _, (dividesAll_iff hbar).mpr rfl, rfl⟩

end Constituency
