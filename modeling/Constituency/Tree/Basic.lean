import Constituency.Symbol

/-!
Syntax trees. Branches carry labels, leaves carry words, and both carry the span of the input they
cover. Functions on a tree come in pairs, one for a tree and one for a list of children.
-/
namespace Constituency

/-- The positions from `start` up to `stop`. -/
structure Span where
  start : Nat
  stop : Nat
  deriving DecidableEq, Repr

def Span.render (s : Span) : String := toString s.start ++ ".." ++ toString s.stop

inductive SyntaxTree (α β : Type) where
  | leaf (word : β) (span : Span)
  | branch (label : α) (span : Span) (children : List (SyntaxTree α β))
  deriving Repr

/-- A tree labelled with grammar symbols, over words. -/
abbrev Tree := SyntaxTree Symbol String

namespace SyntaxTree

variable {α β : Type}

mutual

def decEq [DecidableEq α] [DecidableEq β] : (t u : SyntaxTree α β) → Decidable (t = u)
  | .leaf v s, .leaf w s' =>
    if h : v = w ∧ s = s' then isTrue (by rw [h.1, h.2])
    else isFalse (by intro e; cases e; exact h ⟨rfl, rfl⟩)
  | .leaf _ _, .branch _ _ _ => isFalse (by intro e; cases e)
  | .branch _ _ _, .leaf _ _ => isFalse (by intro e; cases e)
  | .branch l s ts, .branch m s' us =>
    if h : l = m ∧ s = s' then
      match decEqAll ts us with
      | isTrue hc => isTrue (by rw [h.1, h.2, hc])
      | isFalse hc => isFalse (by intro e; cases e; exact hc rfl)
    else isFalse (by intro e; cases e; exact h ⟨rfl, rfl⟩)

def decEqAll [DecidableEq α] [DecidableEq β] : (ts us : List (SyntaxTree α β)) → Decidable (ts = us)
  | [], [] => isTrue rfl
  | [], _ :: _ => isFalse (by intro e; cases e)
  | _ :: _, [] => isFalse (by intro e; cases e)
  | t :: ts, u :: us =>
    match decEq t u with
    | isTrue h =>
      match decEqAll ts us with
      | isTrue hs => isTrue (by rw [h, hs])
      | isFalse hs => isFalse (by intro e; cases e; exact hs rfl)
    | isFalse h => isFalse (by intro e; cases e; exact h rfl)

end

instance [DecidableEq α] [DecidableEq β] : DecidableEq (SyntaxTree α β) := decEq

def span : SyntaxTree α β → Span
  | .leaf _ s => s
  | .branch _ s _ => s

def children : SyntaxTree α β → List (SyntaxTree α β)
  | .leaf _ _ => []
  | .branch _ _ ts => ts

mutual

/-- The leaves with their spans, left to right. -/
def leaves : SyntaxTree α β → List (β × Span)
  | .leaf w s => [(w, s)]
  | .branch _ _ ts => leavesAll ts

def leavesAll : List (SyntaxTree α β) → List (β × Span)
  | [] => []
  | t :: ts => t.leaves ++ leavesAll ts

end

/-- The words, left to right. -/
def words (t : SyntaxTree α β) : List β := t.leaves.map Prod.fst

mutual

/-- The labels of the branches, a branch before what lies below it, left to right. -/
def labels : SyntaxTree α β → List α
  | .leaf _ _ => []
  | .branch l _ ts => l :: labelsAll ts

def labelsAll : List (SyntaxTree α β) → List α
  | [] => []
  | t :: ts => t.labels ++ labelsAll ts

end

mutual

/-- The same tree over other labels and words. -/
def map {γ δ : Type} (f : α → γ) (g : β → δ) : SyntaxTree α β → SyntaxTree γ δ
  | .leaf w s => .leaf (g w) s
  | .branch l s ts => .branch (f l) s (mapAll f g ts)

def mapAll {γ δ : Type} (f : α → γ) (g : β → δ) : List (SyntaxTree α β) → List (SyntaxTree γ δ)
  | [] => []
  | t :: ts => t.map f g :: mapAll f g ts

end

end SyntaxTree

end Constituency
