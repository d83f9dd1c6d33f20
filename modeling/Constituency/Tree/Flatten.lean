import Constituency.Tree.Basic

/-!
Flattening a tree. Below the root, every branch whose label is not kept gives way to its children,
in place. The children are flattened before their parent, so one pass leaves nothing to flatten.
-/
namespace Constituency.SyntaxTree

variable {α β : Type}

/-- A tree as it stands among its siblings: a branch that is not kept is its children. -/
def lift (keep : α → Bool) : SyntaxTree α β → List (SyntaxTree α β)
  | .leaf w s => [.leaf w s]
  | .branch l s ts => if keep l then [.branch l s ts] else ts

mutual

def flatten (keep : α → Bool) : SyntaxTree α β → SyntaxTree α β
  | .leaf w s => .leaf w s
  | .branch l s ts => .branch l s (flattenAll keep ts)

def flattenAll (keep : α → Bool) : List (SyntaxTree α β) → List (SyntaxTree α β)
  | [] => []
  | t :: ts => (t.flatten keep).lift keep ++ flattenAll keep ts

end

@[simp] theorem span_flatten (keep : α → Bool) (t : SyntaxTree α β) :
    (t.flatten keep).span = t.span := by
  cases t <;> rfl

theorem leavesAll_append (ts us : List (SyntaxTree α β)) :
    leavesAll (ts ++ us) = leavesAll ts ++ leavesAll us := by
  induction ts with
  | nil => rfl
  | cons t ts ih => simp [leavesAll, ih]

@[simp] theorem leavesAll_lift (keep : α → Bool) (t : SyntaxTree α β) :
    leavesAll (t.lift keep) = t.leaves := by
  cases t with
  | leaf w s => simp [lift, leavesAll, leaves]
  | branch l s ts =>
    by_cases h : keep l = true <;> simp [lift, h, leavesAll, leaves]

end Constituency.SyntaxTree
