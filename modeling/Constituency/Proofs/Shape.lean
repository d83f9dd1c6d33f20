import Mathlib.Data.List.Forall2
import Constituency.Tree.Basic

/-!
Trees up to the choice of unit chains. A branch with a single branch below it may be one of many
ways from its label down to the first branch that does something else. The shape of a tree keeps the
two ends of every such chain and forgets what is between them, so two trees have the same shape
exactly when they differ in nothing else.
-/
namespace Constituency

namespace SyntaxTree

/-- The node where the descent through branches with a single branch below them ends. -/
def base {α β : Type} : SyntaxTree α β → SyntaxTree α β
  | .branch _ _ [.branch l s ts] => base (.branch l s ts)
  | t => t

/-- Equal leaves; or branches with the same label whose bases have the same label and equally many
children, each equivalent to its counterpart. -/
inductive UnitEquiv : Tree → Tree → Prop
  | leaf (w : String) (s : Span) : UnitEquiv (.leaf w s) (.leaf w s)
  | branch {l m : Symbol} {s s' r r' : Span} {ts us cs ds : List Tree}
      (ht : base (.branch l s ts) = .branch m r cs) (hu : base (.branch l s' us) = .branch m r' ds)
      (hs : List.Forall₂ UnitEquiv cs ds) : UnitEquiv (.branch l s ts) (.branch l s' us)

end SyntaxTree

/-- A tree without the insides of its unit chains. A branch has the label at the top of a chain, the
label at its foot, and what lies below the foot. -/
inductive Shape where
  | leaf (word : String) (span : Span)
  | branch (top foot : Symbol) (children : List Shape)

namespace Shape

/-- A branch over some shapes. Over a single branch it prolongs the chain. -/
def above (l : Symbol) : List Shape → Shape
  | [.branch _ foot cs] => .branch l foot cs
  | cs => .branch l l cs

@[simp] theorem above_branch (l top foot : Symbol) (cs : List Shape) :
    above l [.branch top foot cs] = .branch l foot cs := rfl

theorem above_of_two_le {l : Symbol} {cs : List Shape} (h : 2 ≤ cs.length) :
    above l cs = .branch l l cs := by
  match cs, h with
  | _ :: _ :: _, _ => simp [above]

/-- The symbol a shape stands for. -/
def symbol : Shape → Symbol
  | .leaf w _ => quote w
  | .branch top _ _ => top

mutual

/-- The leaves with their spans, left to right. -/
def leaves : Shape → List (String × Span)
  | .leaf w s => [(w, s)]
  | .branch _ _ cs => leavesAll cs

def leavesAll : List Shape → List (String × Span)
  | [] => []
  | c :: cs => c.leaves ++ leavesAll cs

end

@[simp] theorem leaves_above (l : Symbol) (cs : List Shape) :
    (above l cs).leaves = leavesAll cs := by
  unfold above
  split
  · simp [leaves, leavesAll]
  · rfl

end Shape

namespace SyntaxTree

/-- The symbol a tree stands for: the label of a branch, the terminal for the word of a leaf. -/
def symbol : Tree → Symbol
  | .leaf w _ => quote w
  | .branch l _ _ => l

mutual

def shape : Tree → Shape
  | .leaf w s => .leaf w s
  | .branch l _ ts => Shape.above l (shapes ts)

def shapes : List Tree → List Shape
  | [] => []
  | t :: ts => t.shape :: shapes ts

end

theorem shapes_eq_map (ts : List Tree) : shapes ts = ts.map shape := by
  induction ts with
  | nil => rfl
  | cons t ts ih => rw [shapes, ih, List.map_cons]

theorem shapes_append (ts us : List Tree) : shapes (ts ++ us) = shapes ts ++ shapes us := by
  rw [shapes_eq_map, shapes_eq_map, shapes_eq_map, List.map_append]

mutual

@[simp] theorem leaves_shape : (t : Tree) → t.shape.leaves = t.leaves
  | .leaf w s => rfl
  | .branch l s ts => by rw [shape, Shape.leaves_above, leavesAll_shapes ts, leaves]

theorem leavesAll_shapes : (ts : List Tree) → Shape.leavesAll (shapes ts) = leavesAll ts
  | [] => rfl
  | t :: ts => by rw [shapes, Shape.leavesAll, leaves_shape t, leavesAll_shapes ts, leavesAll]

end

theorem base_branch_single (l m : Symbol) (s r : Span) (us : List Tree) :
    base (.branch l s [.branch m r us]) = base (.branch m r us) := by
  rw [base]

theorem base_of_ne {l : Symbol} {s : Span} {ts : List Tree} (h : ∀ m r us, ts ≠ [.branch m r us]) :
    base (.branch l s ts) = .branch l s ts := by
  rw [base]
  intro m r us u ts' heq
  exact h us u ts' (branch.inj heq).2.2

theorem above_shapes_of_ne {l : Symbol} {ts : List Tree} (h : ∀ m r us, ts ≠ [.branch m r us]) :
    Shape.above l (shapes ts) = .branch l l (shapes ts) := by
  cases ts with
  | nil => rfl
  | cons t ts =>
    cases ts with
    | nil =>
      cases t with
      | leaf w s => rfl
      | branch m r us => exact absurd rfl (h m r us)
    | cons u ts => exact Shape.above_of_two_le (by simp [shapes])

/-- The base of a branch is a branch. It has the label at the foot of the shape, and what lies below
it is smaller than the branch. -/
theorem exists_base (l : Symbol) (s : Span) (ts : List Tree) : ∃ m r cs,
    base (.branch l s ts) = .branch m r cs ∧
    (SyntaxTree.branch l s ts).shape = .branch l m (shapes cs) ∧
      ∀ c ∈ cs, sizeOf c < sizeOf (SyntaxTree.branch l s ts) := by
  induction hn : sizeOf (SyntaxTree.branch l s ts) using Nat.strongRecOn generalizing l s ts with
  | ind n ih =>
    rw [branch.sizeOf_spec] at hn
    by_cases hsingle : ∃ m r us, ts = [.branch m r us]
    · obtain ⟨m, r, us, rfl⟩ := hsingle
      have hlt : sizeOf (SyntaxTree.branch m r us) < n := by
        simp only [List.cons.sizeOf_spec] at hn
        omega
      obtain ⟨foot, span, cs, hbase, hshape, hsmall⟩ := ih _ hlt m r us rfl
      refine ⟨foot, span, cs, by rw [base_branch_single, hbase], ?_, ?_⟩
      · rw [shape, shapes, shapes, hshape, Shape.above_branch]
      · intro c hc
        exact Nat.lt_trans (hsmall c hc) hlt
    · have hne : ∀ m r us, ts ≠ [.branch m r us] := fun m r us h => hsingle ⟨m, r, us, h⟩
      refine ⟨l, s, ts, base_of_ne hne, ?_, ?_⟩
      · rw [shape, above_shapes_of_ne hne]
      · intro c hc
        have := List.sizeOf_lt_of_mem hc
        omega

theorem forall₂_unitEquiv_iff {cs ds : List Tree}
    (h : ∀ c ∈ cs, ∀ u, UnitEquiv c u ↔ c.shape = u.shape) :
    List.Forall₂ UnitEquiv cs ds ↔ shapes cs = shapes ds := by
  induction cs generalizing ds with
  | nil => cases ds <;> simp [shapes]
  | cons c cs ih =>
    cases ds with
    | nil => simp [shapes]
    | cons d ds =>
      rw [List.forall₂_cons, ih fun x hx => h x (List.mem_cons_of_mem _ hx), h c List.mem_cons_self,
        shapes, shapes, List.cons.injEq]

/-- Trees are equivalent up to unit chains exactly when they have the same shape. -/
theorem unitEquiv_iff_shape_eq {t u : Tree} : UnitEquiv t u ↔ t.shape = u.shape := by
  induction hn : sizeOf t using Nat.strongRecOn generalizing t u with
  | ind n ih =>
    cases t with
    | leaf w s =>
      constructor
      · intro h
        cases h
        rfl
      · intro h
        cases u with
        | leaf v r =>
          rw [shape, shape, Shape.leaf.injEq] at h
          obtain ⟨rfl, rfl⟩ := h
          exact .leaf w s
        | branch l r us =>
          obtain ⟨m, -, cs, -, hshape, -⟩ := exists_base l r us
          rw [hshape, shape] at h
          cases h
    | branch l s ts =>
      obtain ⟨m, r, cs, hbase, hshape, hsmall⟩ := exists_base l s ts
      have hchildren : ∀ ds, List.Forall₂ UnitEquiv cs ds ↔ shapes cs = shapes ds := by
        intro ds
        exact forall₂_unitEquiv_iff fun c hc u => ih _ (hn ▸ hsmall c hc) rfl
      rw [hshape]
      constructor
      · intro h
        cases h with
        | @branch _ m' _ s' r₁ r₂ _ us cs' ds ht hu hs =>
          obtain ⟨k, q, es, hbase', hshape', -⟩ := exists_base l s' us
          obtain ⟨rfl, rfl, rfl⟩ := branch.inj (hbase.symm.trans ht)
          obtain ⟨rfl, rfl, rfl⟩ := branch.inj (hbase'.symm.trans hu)
          rw [hshape', (hchildren _).mp hs]
      · intro h
        cases u with
        | leaf w r => cases h
        | branch l' s' us =>
          obtain ⟨k, q, es, hbase', hshape', -⟩ := exists_base l' s' us
          obtain ⟨rfl, rfl, hcs⟩ := Shape.branch.inj (h.trans hshape')
          exact .branch hbase hbase' ((hchildren es).mpr hcs)

end SyntaxTree

end Constituency
