import Mathlib.Logic.Relation
import Constituency.Grammar.Basic

/-!
Rewriting with the productions of a grammar. A string derives another in one or more rewriting
steps. What a string reaches can also be read from below, symbol by symbol, and this reading has an
induction that follows the productions used. The two agree.
-/
namespace Constituency.Grammar

open Relation

variable {g : Grammar}

/-- One rewriting step: somewhere in a string a left-hand side gives way to its right-hand side. -/
def Rewrites (g : Grammar) (a b : List Symbol) : Prop :=
  ∃ p ∈ g.productions, ∃ u v, a = u ++ p.lhs :: v ∧ b = u ++ p.rhs ++ v

/-- One or more rewriting steps. -/
def Derives (g : Grammar) : List Symbol → List Symbol → Prop := TransGen g.Rewrites

/-- Any number of rewriting steps. -/
def Reaches (g : Grammar) : List Symbol → List Symbol → Prop := ReflTransGen g.Rewrites

theorem Rewrites.context {a b : List Symbol} (h : g.Rewrites a b) (u v : List Symbol) :
    g.Rewrites (u ++ a ++ v) (u ++ b ++ v) := by
  obtain ⟨p, hp, x, y, rfl, rfl⟩ := h
  exact ⟨p, hp, u ++ x, y ++ v, by simp, by simp⟩

theorem Derives.context {a b : List Symbol} (h : g.Derives a b) (u v : List Symbol) :
    g.Derives (u ++ a ++ v) (u ++ b ++ v) :=
  TransGen.lift (fun w => u ++ w ++ v) (fun _ _ hr => Rewrites.context hr u v) _ _ h

theorem Reaches.context {a b : List Symbol} (h : g.Reaches a b) (u v : List Symbol) :
    g.Reaches (u ++ a ++ v) (u ++ b ++ v) :=
  ReflTransGen.lift (fun w => u ++ w ++ v) (fun _ _ hr => Rewrites.context hr u v) _ _ h

theorem Reaches.append {a b c d : List Symbol} (hab : g.Reaches a b) (hcd : g.Reaches c d) :
    g.Reaches (a ++ c) (b ++ d) := by
  have hl := hab.context [] c
  have hr := hcd.context b []
  simp only [List.nil_append, List.append_nil] at hl hr
  exact ReflTransGen.trans hl hr

/-- What holds of the symbols of all right-hand sides, and of a string, holds of all that the string
reaches. -/
theorem Reaches.forall_mem {q : Symbol → Prop} (hg : ∀ p ∈ g.productions, ∀ s ∈ p.rhs, q s)
    {a b : List Symbol} (h : g.Reaches a b) (ha : ∀ s ∈ a, q s) : ∀ s ∈ b, q s := by
  induction h with
  | refl => exact ha
  | tail _ hstep ih =>
    obtain ⟨p, hp, u, v, rfl, rfl⟩ := hstep
    simp only [List.mem_append, List.mem_cons] at ih ⊢
    rintro s ((hs | hs) | hs)
    · exact ih s (.inl hs)
    · exact hg p hp s hs
    · exact ih s (.inr (.inr hs))

/-- Without empty productions nothing is rewritten to the empty string. -/
theorem Reaches.ne_nil (hg : ∀ p ∈ g.productions, p.rhs ≠ []) {a b : List Symbol}
    (h : g.Reaches a b) (ha : a ≠ []) : b ≠ [] := by
  induction h with
  | refl => exact ha
  | tail _ hstep _ =>
    obtain ⟨p, hp, u, v, rfl, rfl⟩ := hstep
    simp [hg p hp]

/-- A left-hand side derives its right-hand side. -/
theorem rewrites_production {p : Production} (hp : p ∈ g.productions) : g.Rewrites [p.lhs] p.rhs :=
  ⟨p, hp, [], [], rfl, by simp⟩

/-- A single symbol is rewritten by one of its own productions. -/
theorem rewrites_singleton {s : Symbol} {b : List Symbol} (h : g.Rewrites [s] b) :
    ∃ p ∈ g.productions, p.lhs = s ∧ p.rhs = b := by
  obtain ⟨p, hp, u, v, hs, rfl⟩ := h
  have hl := congrArg List.length hs
  simp only [List.length_append, List.length_cons, List.length_nil] at hl
  obtain rfl : u = [] := List.eq_nil_of_length_eq_zero (by omega)
  obtain rfl : v = [] := List.eq_nil_of_length_eq_zero (by omega)
  refine ⟨p, hp, ?_, by simp⟩
  simpa using hs.symm

/-- The string that lies below a string of symbols: each symbol stays, or one of its productions is
used and what lies below the right-hand side takes its place. -/
inductive Spells (g : Grammar) : List Symbol → List Symbol → Prop
  | nil : Spells g [] []
  | keep {s : Symbol} {ss w : List Symbol} : Spells g ss w → Spells g (s :: ss) (s :: w)
  | expand {p : Production} {ss v w : List Symbol} : p ∈ g.productions → Spells g p.rhs v →
      Spells g ss w → Spells g (p.lhs :: ss) (v ++ w)

theorem Spells.refl (ss : List Symbol) : g.Spells ss ss := by
  induction ss with
  | nil => exact .nil
  | cons s ss ih => exact .keep ih

theorem Spells.append {a b v w : List Symbol} (ha : g.Spells a v) (hb : g.Spells b w) :
    g.Spells (a ++ b) (v ++ w) := by
  induction ha with
  | nil => exact hb
  | keep _ ih => exact .keep ih
  | expand hp hr _ _ ih =>
    rw [List.append_assoc]
    exact .expand hp hr ih

/-- What lies below a concatenation splits into what lies below its parts. -/
theorem spells_append_iff {a b w : List Symbol} :
    g.Spells (a ++ b) w ↔ ∃ u v, w = u ++ v ∧ g.Spells a u ∧ g.Spells b v := by
  constructor
  · intro h
    induction a generalizing w with
    | nil => exact ⟨[], w, rfl, .nil, h⟩
    | cons s a ih =>
      cases h with
      | keep h =>
        obtain ⟨u, v, rfl, hu, hv⟩ := ih h
        exact ⟨s :: u, v, rfl, .keep hu, hv⟩
      | @expand p _ x y hp hr h =>
        obtain ⟨u, v, rfl, hu, hv⟩ := ih h
        exact ⟨x ++ u, v, by rw [List.append_assoc], .expand hp hr hu, hv⟩
  · rintro ⟨u, v, rfl, hu, hv⟩
    exact hu.append hv

theorem Spells.of_rewrites {a b c : List Symbol} (h : g.Rewrites a b) (hb : g.Spells b c) :
    g.Spells a c := by
  obtain ⟨p, hp, u, v, rfl, rfl⟩ := h
  obtain ⟨x, z, rfl, hx, hz⟩ := spells_append_iff.mp hb
  obtain ⟨x, y, rfl, hu, hr⟩ := spells_append_iff.mp hx
  rw [List.append_assoc]
  exact hu.append (.expand hp hr hz)

/-- Rewriting from above and reading from below give the same strings. -/
theorem spells_iff_reaches {a b : List Symbol} : g.Spells a b ↔ g.Reaches a b := by
  constructor
  · intro h
    induction h with
    | nil => exact ReflTransGen.refl
    | @keep s _ _ _ ih =>
      simpa using Reaches.append (a := [s]) ReflTransGen.refl ih
    | @expand p ss _ _ hp _ _ ihr ih =>
      have hl : g.Reaches [p.lhs] _ := ReflTransGen.head (rewrites_production hp) ihr
      simpa using hl.append ih
  · intro h
    induction h using ReflTransGen.head_induction_on with
    | refl => exact .refl b
    | head hr _ ih => exact .of_rewrites hr ih

/-- A symbol derives a string by one of its productions first. -/
theorem derives_singleton_iff {s : Symbol} {w : List Symbol} :
    g.Derives [s] w ↔ ∃ p ∈ g.productions, p.lhs = s ∧ g.Spells p.rhs w := by
  rw [Derives, TransGen.head'_iff]
  constructor
  · rintro ⟨b, hr, hb⟩
    obtain ⟨p, hp, rfl, rfl⟩ := rewrites_singleton hr
    exact ⟨p, hp, rfl, spells_iff_reaches.mpr hb⟩
  · rintro ⟨p, hp, rfl, hw⟩
    exact ⟨p.rhs, rewrites_production hp, spells_iff_reaches.mp hw⟩

end Constituency.Grammar
