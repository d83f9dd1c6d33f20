import Mathlib.Data.List.Basic
import Constituency.Proofs.Closing
import Constituency.SymbolSet

/-!
What closing a set of symbols reaches. Every symbol of the set is either on the frontier or has its
productions applied already, and none comes into the set unless a base reaches it. Once the frontier
is empty the set holds what its bases reach and nothing else.
-/
namespace Constituency.SymbolSet

theorem mem_expand {ps : List Production} {set : SymbolSet} {frontier : List Symbol} {t : Symbol} :
    t ∈ (expand ps set frontier).1.toList ↔ t ∈ set.toList ∨ ∃ p ∈ ps, p.lhs = t := by
  induction ps generalizing set frontier with
  | nil => simp [expand]
  | cons p ps ih =>
    rw [expand, List.exists_mem_cons_iff]
    split
    · next hold =>
      have hlhs : p.lhs ∈ set.toList := by simpa [contains] using hold
      rw [ih]
      grind
    · rw [ih, mem_insert]
      grind

/-- What joins the frontier was not in the set before. -/
theorem mem_frontier_expand {ps : List Production} {set : SymbolSet} {frontier : List Symbol}
    {t : Symbol} : t ∈ (expand ps set frontier).2 ↔
      t ∈ frontier ∨ t ∉ set.toList ∧ ∃ p ∈ ps, p.lhs = t := by
  induction ps generalizing set frontier with
  | nil => simp [expand]
  | cons p ps ih =>
    rw [expand, List.exists_mem_cons_iff]
    split
    · next hold =>
      have hlhs : p.lhs ∈ set.toList := by simpa [contains] using hold
      rw [ih]
      grind
    · next hnew =>
      have hlhs : p.lhs ∉ set.toList := by simpa [contains] using hnew
      rw [ih, mem_insert, List.mem_cons]
      grind

/-- What holds between the turns of a search that started from these bases. -/
structure Searched (g : Grammar) (bases set : SymbolSet) (frontier : List Symbol) : Prop where
  bases_mem : ∀ b ∈ bases.toList, b ∈ set.toList
  reached : ∀ s ∈ set.toList, ∃ b ∈ bases.toList, g.UnitReaches b s
  frontier_mem : ∀ s ∈ frontier, s ∈ set.toList
  followed : ∀ s ∈ set.toList, s ∈ frontier ∨ ∀ t, g.UnitStep s t → t ∈ set.toList

namespace Searched

variable {g : Grammar} {bases set : SymbolSet} {frontier : List Symbol}

theorem start (g : Grammar) (set : SymbolSet) : Searched g set set set.toList.reverse where
  bases_mem _ hb := hb
  reached s hs := ⟨s, hs, .refl⟩
  frontier_mem _ hs := List.mem_reverse.mp hs
  followed _ hs := .inl (List.mem_reverse.mpr hs)

/-- One turn of the search takes the symbol on top of the frontier. -/
theorem turn {s : Symbol} (h : Searched g bases set (s :: frontier)) :
    Searched g bases (expand (g.byRhsKey s) set frontier).1
      (expand (g.byRhsKey s) set frontier).2 := by
  have hs : s ∈ set.toList := h.frontier_mem s List.mem_cons_self
  constructor
  · intro b hb
    exact mem_expand.mpr (.inl (h.bases_mem b hb))
  · intro t ht
    obtain ht | hstep := mem_expand.mp ht
    · exact h.reached t ht
    · obtain ⟨b, hb, hreach⟩ := h.reached s hs
      exact ⟨b, hb, hreach.tail hstep⟩
  · intro t ht
    rw [mem_expand]
    obtain ht | ⟨-, hstep⟩ := mem_frontier_expand.mp ht
    · exact .inl (h.frontier_mem t (List.mem_cons_of_mem _ ht))
    · exact .inr hstep
  · intro t ht
    rw [mem_frontier_expand]
    by_cases hold : t ∈ set.toList
    · obtain htop | hfollowed := h.followed t hold
      · obtain rfl | hbelow := List.mem_cons.mp htop
        · exact .inr fun u hu => mem_expand.mpr (.inr hu)
        · exact .inl (.inl hbelow)
      · exact .inr fun u hu => mem_expand.mpr (.inl (hfollowed u hu))
    · obtain ht | hstep := mem_expand.mp ht
      · exact absurd ht hold
      · exact .inl (.inr ⟨hold, hstep⟩)

/-- Every symbol has had its turn when the search ends. -/
theorem search (h : Searched g bases set frontier) :
    Searched g bases (search g set frontier) [] := by
  fun_induction SymbolSet.search g set frontier with
  | case1 set => exact h
  | case2 set s frontier next ih => exact ih h.turn

/-- A set whose symbols have all had their turn holds what its bases reach. -/
theorem mem_iff (h : Searched g bases set []) {s : Symbol} :
    s ∈ set.toList ↔ ∃ b ∈ bases.toList, g.UnitReaches b s := by
  constructor
  · exact h.reached s
  · rintro ⟨b, hb, hreach⟩
    induction hreach with
    | refl => exact h.bases_mem b hb
    | tail _ hstep ih =>
      obtain hnone | hfollowed := h.followed _ ih
      · cases hnone
      · exact hfollowed _ hstep

end Searched

/-- Closing a set adds what its symbols reach, over cycles of productions too. -/
theorem mem_closeUnits {g : Grammar} {set : SymbolSet} {s : Symbol} :
    s ∈ (closeUnits g set).toList ↔ ∃ b ∈ set.toList, g.UnitReaches b s :=
  (Searched.start g set).search.mem_iff

end Constituency.SymbolSet
