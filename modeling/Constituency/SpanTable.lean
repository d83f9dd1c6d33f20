import Constituency.Grammar.Basic
import Constituency.Grid

/-!
Filling a span table from the bottom up. Every token is first looked up in the lexicon; a token
without an entry stops the fill. Then the right end of the span moves up, and for each right end the
left end moves down. A span is combined from its two parts at every inner position, in ascending
order, and then closed. What a cell holds is open: any type with these operations can be filled.
-/
namespace Constituency

/-- What the cells of a span table have to provide. -/
class Cell (κ : Type) extends Inhabited κ where
  /-- The cell over one token, from the productions for that token. -/
  seed : List Production → κ
  /-- Adds to the cell of `i..j` what the cells of `i..k` and `k..j` make together. -/
  combine : Grammar → (i k j : Nat) → (left right : κ) → κ → κ
  /-- Closes the cell of `i..j` under productions with one symbol. -/
  close : Grammar → (i j : Nat) → κ → κ
  /-- The number of things in the cell. -/
  size : κ → Nat

/-- A token that no production has as its right-hand side, and where it stands. -/
structure UnknownToken where
  token : String
  position : Nat
  deriving DecidableEq, Repr

/-- One action of a fill. -/
inductive FillStep where
  | combine (i k j : Nat)
  | close (i j : Nat)
  deriving DecidableEq, Repr

namespace FillStep

/-- The span that the action changes. -/
def target : FillStep → Nat × Nat
  | .combine i _ j => (i, j)
  | .close i j => (i, j)

def apply {κ : Type} [Cell κ] (g : Grammar) (table : Grid κ) : FillStep → Grid κ
  | .combine i k j => table.modify i j (Cell.combine g i k j (table.get i k) (table.get k j))
  | .close i j => table.modify i j (Cell.close g i j)

end FillStep

namespace SpanTable

/-- The actions for one span. -/
def spanSteps (i j : Nat) : List FillStep :=
  (List.range' (i + 1) (j - (i + 1))).map (FillStep.combine i · j) ++ [.close i j]

/-- The spans of a table in the order in which they are closed. -/
def spans (n : Nat) : List (Nat × Nat) :=
  (List.range n).flatMap fun j => (List.range (j + 1)).reverse.map fun i => (i, j + 1)

/-- All actions of a fill for `n` tokens. -/
def schedule (n : Nat) : List FillStep := (spans n).flatMap fun s => spanSteps s.1 s.2

theorem mem_spans {n : Nat} {s : Nat × Nat} : s ∈ spans n ↔ s.1 < s.2 ∧ s.2 ≤ n := by
  obtain ⟨i, j⟩ := s
  simp only [spans, List.mem_flatMap, List.mem_range, List.mem_map, List.mem_reverse, Prod.mk.injEq]
  constructor
  · rintro ⟨m, hm, k, hk, rfl, rfl⟩
    omega
  · rintro ⟨hi, hj⟩
    exact ⟨j - 1, by omega, i, by omega, rfl, by omega⟩

/-- The productions for each token. Fails at the first token without any. -/
def lexicon (g : Grammar) (position : Nat) :
    List String → Except UnknownToken (List (List Production))
  | [] => .ok []
  | token :: rest =>
    match g.byRhsKey (quote token) with
    | [] => .error ⟨token, position⟩
    | p :: ps => (lexicon g (position + 1) rest).map ((p :: ps) :: ·)

/-- Puts the productions for the tokens from `position` on into their cells. -/
def seed {κ : Type} [Cell κ] (position : Nat) : List (List Production) → Grid κ → Grid κ
  | [], table => table
  | ps :: rest, table =>
    seed (position + 1) rest (table.modify position (position + 1) fun _ => Cell.seed ps)

/-- The table of a sentence, or its first unknown token. -/
def fill (κ : Type) [Cell κ] (g : Grammar) (tokens : List String) : Except UnknownToken (Grid κ) :=
  match lexicon g 0 tokens with
  | .error e => .error e
  | .ok entries =>
    .ok ((schedule tokens.length).foldl (FillStep.apply g)
      (seed 0 entries (Grid.replicate tokens.length default)))

end SpanTable

end Constituency
