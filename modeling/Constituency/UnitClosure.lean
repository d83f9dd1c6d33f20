import Constituency.Grammar.Basic

/-!
Closing a cell under productions with one symbol. The search starts from the symbols a cell already
holds, its bases, and each base grows in a lane. A lane holds every symbol at most once: it keeps
the nonterminals it has not reached yet, and reaching one takes it from there. So what is still to
be reached, together with what waits in the queue, shrinks with every item taken from the queue,
and cycles of productions end.
-/
namespace Constituency.UnitClosure

/-- A symbol reached in a lane. `via` is the position of the item that its production has on the
right; a base has none. -/
structure Item where
  symbol : Symbol
  lane : Nat
  via : Option Nat
  deriving DecidableEq, Repr

/-- For each lane, the nonterminals it has not reached. -/
abbrev Fresh := Array (List Symbol)

/-- How many symbols are still to be reached, in all lanes together. -/
def Fresh.credit (fresh : Fresh) : Nat := fresh.toList.flatten.length

/-- The symbol is reached in the lane. -/
def Fresh.take (fresh : Fresh) (lane : Nat) (s : Symbol) : Fresh :=
  fresh.modify lane fun left => left.erase s

/-- The symbol is still to be reached in the lane. -/
def Fresh.has (fresh : Fresh) (lane : Nat) (s : Symbol) : Bool :=
  (fresh.getD lane []).contains s

theorem length_modify_erase (left : List (List Symbol)) (lane : Nat) (s : Symbol)
    (h : s ∈ left.getD lane []) :
    (left.modify lane fun l => l.erase s).flatten.length + 1 = left.flatten.length := by
  induction left generalizing lane with
  | nil => simp at h
  | cons l rest ih =>
    cases lane with
    | zero =>
      have hs : s ∈ l := by simpa using h
      have := List.length_pos_of_mem hs
      simp [List.modify, List.length_erase_of_mem hs]
      omega
    | succ lane =>
      have := ih lane (by simpa using h)
      simp only [List.modify_succ_cons, List.flatten_cons, List.length_append]
      omega

/-- Taking a fresh symbol costs one. -/
theorem Fresh.credit_take {fresh : Fresh} {lane : Nat} {s : Symbol}
    (h : fresh.has lane s = true) : (fresh.take lane s).credit + 1 = fresh.credit := by
  simp only [credit, take, Array.toList_modify]
  apply length_modify_erase
  simpa [has, Array.getD_eq_getD_getElem?] using h

/-- The items that productions over the item at position `idx` reach in a lane, in order, and what
is fresh after them. -/
def expand (lane idx : Nat) : List Production → Fresh → List Item × Fresh
  | [], fresh => ([], fresh)
  | p :: ps, fresh =>
    if fresh.has lane p.lhs then
      let (items, fresh) := expand lane idx ps (fresh.take lane p.lhs)
      (⟨p.lhs, lane, some idx⟩ :: items, fresh)
    else expand lane idx ps fresh

/-- Every item is paid for by a fresh symbol. -/
theorem credit_expand (lane idx : Nat) (ps : List Production) (fresh : Fresh) :
    (expand lane idx ps fresh).2.credit + (expand lane idx ps fresh).1.length = fresh.credit := by
  induction ps generalizing fresh with
  | nil => simp [expand]
  | cons p ps ih =>
    by_cases h : fresh.has lane p.lhs = true
    · have := ih (fresh.take lane p.lhs)
      have := Fresh.credit_take h
      simp only [expand, h, if_true, List.length_cons]
      omega
    · simp only [expand, h]
      exact ih fresh

/-- Takes items from the queue in order. The first of them has position `idx`; what it reaches joins
the end of the queue. -/
def run (g : Grammar) (idx : Nat) (fresh : Fresh) : List Item → List Item
  | [] => []
  | item :: queue =>
    let next := expand item.lane idx (g.byRhsKey item.symbol) fresh
    item :: run g (idx + 1) next.2 (queue ++ next.1)
termination_by queue => fresh.credit + queue.length
decreasing_by
  have := credit_expand item.lane idx (g.byRhsKey item.symbol) fresh
  simp only [List.length_append, List.length_cons]
  omega

/-- Bases with their lanes, before anything is reached from them. -/
def start (g : Grammar) (lanes : Nat) (bases : List (Symbol × Nat)) : List Item × Fresh :=
  (bases.map fun b => ⟨b.1, b.2, none⟩,
    bases.foldl (fun fresh b => Fresh.take fresh b.2 b.1) (Array.replicate lanes g.nonterminals))

/-- All items reached from the bases, the bases first, in the order in which they are reached. -/
def close (g : Grammar) (lanes : Nat) (bases : List (Symbol × Nat)) : List Item :=
  run g 0 (start g lanes bases).2 (start g lanes bases).1

@[simp] theorem run_nil (g : Grammar) (idx : Nat) (fresh : Fresh) : run g idx fresh [] = [] := by
  simp [run]

end Constituency.UnitClosure
