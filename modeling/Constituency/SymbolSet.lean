import Constituency.SpanTable

/-!
Sets of symbols, and span tables whose cells are such sets. A cell holds the symbols that span its
part of the sentence, each once, however many ways there are to build it. A cell is closed under
productions with one symbol by a search over the cell itself: its frontier is a stack of the symbols
whose productions are still to be applied, and only what is new to the cell joins it. What the cell
lacks and what is on the frontier shrink together with every symbol taken from there, and cycles of
productions end.
-/
namespace Constituency

/-- A set of symbols. -/
structure SymbolSet where
  toList : List Symbol
  nodup : toList.Nodup
  deriving DecidableEq

namespace SymbolSet

def empty : SymbolSet := ⟨[], List.nodup_nil⟩

instance : Inhabited SymbolSet := ⟨empty⟩

def contains (set : SymbolSet) (s : Symbol) : Bool := set.toList.contains s

def insert (set : SymbolSet) (s : Symbol) : SymbolSet :=
  if h : s ∈ set.toList then set else ⟨s :: set.toList, List.nodup_cons.2 ⟨h, set.nodup⟩⟩

def insertAll (set : SymbolSet) (ss : List Symbol) : SymbolSet := ss.foldl insert set

theorem mem_insert {set : SymbolSet} {s t : Symbol} :
    t ∈ (set.insert s).toList ↔ t = s ∨ t ∈ set.toList := by
  by_cases h : s ∈ set.toList
  · simp only [insert, h, dif_pos]
    constructor
    · exact Or.inr
    · rintro (rfl | ht)
      · exact h
      · exact ht
  · simp [insert, h]

@[simp] theorem mem_insertAll {set : SymbolSet} {ss : List Symbol} {t : Symbol} :
    t ∈ (set.insertAll ss).toList ↔ t ∈ ss ∨ t ∈ set.toList := by
  induction ss generalizing set with
  | nil => simp [insertAll]
  | cons s ss ih =>
    have h := @ih (set.insert s)
    simp only [insertAll, List.foldl_cons] at h ⊢
    rw [h, mem_insert, List.mem_cons]
    constructor
    · rintro (h | h | h)
      · exact .inl (.inr h)
      · exact .inl (.inl h)
      · exact .inr h
    · rintro ((h | h) | h)
      · exact .inr (.inl h)
      · exact .inl h
      · exact .inr (.inr h)

/-- The left-hand sides of the binary productions over a symbol of each set. -/
def pairs (g : Grammar) (left right : SymbolSet) : List Symbol :=
  left.toList.flatMap fun b =>
    right.toList.flatMap fun c => (g.byRhsKey (rhsKey [b, c])).map Production.lhs

/-- The nonterminals that the set does not hold. -/
def lacking (g : Grammar) (set : SymbolSet) : List Symbol :=
  g.nonterminals.filter fun s => !set.contains s

theorem length_lacking_insert {g : Grammar} {set : SymbolSet} {s : Symbol}
    (hs : s ∈ g.nonterminals) (hnew : set.contains s = false) :
    (lacking g (set.insert s)).length + 1 = (lacking g set).length := by
  have hmem : s ∈ lacking g set := List.mem_filter.mpr ⟨hs, by rw [hnew]; rfl⟩
  have hnodup : (lacking g set).Nodup := List.Pairwise.filter _ g.nodup_nonterminals
  have herase : lacking g (set.insert s) = (lacking g set).erase s := by
    rw [hnodup.erase_eq_filter, lacking, lacking, List.filter_filter]
    refine List.filter_congr fun t _ => ?_
    rw [Bool.eq_iff_iff]
    simp [contains, mem_insert]
  have hpos := List.length_pos_of_mem hmem
  rw [herase, List.length_erase_of_mem hmem]
  omega

/-- Adds the left-hand sides of productions, in order. One that is new to the set goes on top of the
frontier. -/
def expand : List Production → SymbolSet → List Symbol → SymbolSet × List Symbol
  | [], set, frontier => (set, frontier)
  | p :: ps, set, frontier =>
    if set.contains p.lhs then expand ps set frontier
    else expand ps (set.insert p.lhs) (p.lhs :: frontier)

/-- What joins the frontier is paid for by the set, which lacks it no more. -/
theorem length_expand {g : Grammar} {ps : List Production} (hps : ∀ p ∈ ps, p ∈ g.productions)
    (set : SymbolSet) (frontier : List Symbol) :
    (lacking g (expand ps set frontier).1).length + (expand ps set frontier).2.length =
      (lacking g set).length + frontier.length := by
  induction ps generalizing set frontier with
  | nil => rfl
  | cons p ps ih =>
    rw [List.forall_mem_cons] at hps
    rw [expand]
    split
    · exact ih hps.2 set frontier
    · next hnew =>
      have hlhs : p.lhs ∈ g.nonterminals := Grammar.mem_nonterminals.mpr ⟨p, hps.1, rfl⟩
      have := length_lacking_insert hlhs ((Bool.not_eq_true _).mp hnew)
      rw [ih hps.2, List.length_cons]
      omega

/-- Takes symbols from the top of the frontier until there are none, and expands each of them. -/
def search (g : Grammar) (set : SymbolSet) : List Symbol → SymbolSet
  | [] => set
  | s :: frontier =>
    let next := expand (g.byRhsKey s) set frontier
    search g next.1 next.2
termination_by frontier => (lacking g set).length + frontier.length
decreasing_by
  have hps : ∀ p ∈ g.byRhsKey s, p ∈ g.productions := fun p hp => (Grammar.mem_byRhsKey.mp hp).1
  have := length_expand hps set frontier
  simp only [List.length_cons]
  omega

/-- Closes a set under productions with one symbol. All its symbols are on the frontier at first,
the last one on top. -/
def closeUnits (g : Grammar) (set : SymbolSet) : SymbolSet := search g set set.toList.reverse

instance : Cell SymbolSet where
  seed ps := empty.insertAll (ps.map Production.lhs)
  combine g _ _ _ left right set := set.insertAll (pairs g left right)
  close g _ _ set := closeUnits g set
  size set := set.toList.length

end SymbolSet

end Constituency
