import Constituency.Proofs.Flattening

/-!
Flattening on shapes. The shape of a flattened tree is determined by the shape of the tree. The
other way round, shapes for one symbol that flatten alike are the same: what they expand to decides
which productions stand at their feet, and how many pieces belong to either side of a pair.
-/
namespace Constituency

namespace Shape

mutual

/-- A flattened shape among its siblings. -/
def lift (keep : Symbol → Bool) : Shape → List Shape
  | .leaf w s => [.leaf w s]
  | .branch top foot cs =>
    if keep top then [.branch top foot (liftAll keep cs)] else liftAll keep cs

def liftAll (keep : Symbol → Bool) : List Shape → List Shape
  | [] => []
  | c :: cs => c.lift keep ++ liftAll keep cs

end

variable {keep : Symbol → Bool}

theorem lift_kept {top : Symbol} (h : keep top = true) (foot : Symbol) (cs : List Shape) :
    (branch top foot cs).lift keep = [.branch top foot (liftAll keep cs)] := by
  rw [lift, if_pos h]

theorem lift_introduced {top : Symbol} (h : keep top = false) (foot : Symbol) (cs : List Shape) :
    (branch top foot cs).lift keep = liftAll keep cs := by
  rw [lift, if_neg (by simp [h])]

@[simp] theorem liftAll_leaf (w : String) (s : Span) : liftAll keep [.leaf w s] = [.leaf w s] := by
  simp [liftAll, lift]

@[simp] theorem liftAll_pair (x y : Shape) : liftAll keep [x, y] = x.lift keep ++ y.lift keep := by
  simp [liftAll]

/-- Shapes that flatten alike and either are kept or end at their own tops agree at their feet and
below. -/
theorem foot_eq_of_lift_eq {top foot foot' : Symbol} {cs cs' : List Shape}
    (htop : keep top = true ∨ (foot = top ∧ foot' = top))
    (h : (branch top foot cs).lift keep = (branch top foot' cs').lift keep) :
    foot = foot' ∧ liftAll keep cs = liftAll keep cs' := by
  cases hkeep : keep top with
  | true =>
    rw [lift_kept hkeep, lift_kept hkeep, List.singleton_inj, branch.injEq] at h
    exact h.2
  | false =>
    rw [lift_introduced hkeep, lift_introduced hkeep] at h
    obtain htop | ⟨hfoot, hfoot'⟩ := htop
    · rw [hkeep] at htop
      cases htop
    · exact ⟨hfoot.trans hfoot'.symm, h⟩

end Shape

namespace Conversion

open Grammar SyntaxTree

variable {g h : Grammar} {n : Naming} {tokens : List String}

theorem isNonterminal_of_unitReaches {b s : Symbol} (hb : h.isNonterminal b = true)
    (hr : h.UnitReaches b s) : h.isNonterminal s = true := by
  induction hr with
  | refl => exact hb
  | tail _ hstep _ =>
    obtain ⟨p, hp, rfl⟩ := hstep
    exact isNonterminal_of_mem_byRhsKey hp

theorem isNonterminal_of_spanShape {s : Symbol} {i j : Nat} {x : Shape}
    (hx : h.SpanShape tokens s i j x) : h.isNonterminal s = true := by
  cases hx with
  | token _ hp hr | binary hp hr _ _ =>
    exact isNonterminal_of_unitReaches (isNonterminal_of_mem_byRhsKey hp) hr

section Setting

variable (hs : Setting g n h tokens)

include hs

/-- A chain of productions with one symbol has no introduced symbol in it. -/
theorem Setting.isSymbol_of_unitReaches {b s : Symbol} (hb : h.isNonterminal b = true)
    (hr : h.UnitReaches b s) : g.isSymbol s = true ∨ b = s := by
  cases hr with
  | refl => exact .inr rfl
  | @tail c _ hr hstep =>
    obtain ⟨p, hp, rfl⟩ := hstep
    have hc := isNonterminal_of_unitReaches hb hr
    obtain ⟨hp, hrhs⟩ := (hs.mem_unit hc).mp hp
    exact .inl (hs.explains.isSymbol_of_unit hp hrhs hc).2

theorem Setting.pieces_ne_nil {s : Symbol} {i j : Nat} {t : Tree} (ht : h.SpanTree tokens s i j t) :
    pieces g.isSymbol t ≠ [] := by
  intro hnil
  have hsymbols := (hs.pieces_of_spanTree ht).1
  rw [hnil] at hsymbols
  exact hs.explains.sound.expand_ne_nil s hsymbols.symm

/-- The shape of what a tree flattens to is what its shape flattens to. -/
theorem Setting.shapes_pieces {s : Symbol} {i j : Nat} {t : Tree} (ht : h.SpanTree tokens s i j t) :
    shapes (pieces g.isSymbol t) = t.shape.lift g.isSymbol := by
  induction ht with
  | @token i w p hw hp =>
    have hshape : (SyntaxTree.branch p.lhs ⟨i, i + 1⟩ [.leaf w ⟨i, i + 1⟩]).shape =
        .branch p.lhs p.lhs [.leaf w ⟨i, i + 1⟩] := rfl
    rw [hshape]
    cases hkeep : g.isSymbol p.lhs with
    | true =>
      rw [pieces_kept hkeep, Shape.lift_kept hkeep, Shape.liftAll_leaf]
      rfl
    | false =>
      rw [pieces_introduced hkeep, Shape.lift_introduced hkeep, Shape.liftAll_leaf]
      rfl
  | @unit i j b p u hp hb ih =>
    obtain ⟨hp, hrhs⟩ := (hs.mem_unit (isNonterminal_of_spanTree hb)).mp hp
    obtain ⟨hkeepb, hkeep⟩ := hs.explains.isSymbol_of_unit hp hrhs (isNonterminal_of_spanTree hb)
    obtain ⟨foot, cs, hu⟩ := hb.spanShape.exists_foot
    have hshape : (SyntaxTree.branch p.lhs ⟨i, j⟩ [u]).shape = .branch p.lhs foot cs := by
      rw [shape, shapes, shapes, hu, Shape.above_branch]
    rw [hu, Shape.lift_kept hkeepb] at ih
    rw [hshape, pieces_kept hkeep, Shape.lift_kept hkeep, shapes, shapes, shape, flattenAll_cons,
      flattenAll_nil, List.append_nil, ih, Shape.above_branch]
  | @binary i k j b c p u v hp hb hc ihb ihc =>
    have hshape :
        (SyntaxTree.branch p.lhs ⟨i, j⟩ [u, v]).shape = .branch p.lhs p.lhs [u.shape, v.shape] :=
      Shape.above_of_two_le (Nat.le_refl 2)
    have hpieces :
        shapes (flattenAll g.isSymbol [u, v]) = Shape.liftAll g.isSymbol [u.shape, v.shape] := by
      rw [flattenAll_cons, flattenAll_cons, flattenAll_nil, List.append_nil, shapes_append,
        ihb, ihc, Shape.liftAll_pair]
    rw [hshape]
    cases hkeep : g.isSymbol p.lhs with
    | true =>
      have htwo : 2 ≤ (shapes (flattenAll g.isSymbol [u, v])).length := by
        have hu := List.length_pos_iff.mpr (hs.pieces_ne_nil hb)
        have hv := List.length_pos_iff.mpr (hs.pieces_ne_nil hc)
        rw [shapes_eq_map, List.length_map, flattenAll_cons, flattenAll_cons, flattenAll_nil,
          List.append_nil, List.length_append]
        omega
      rw [pieces_kept hkeep, Shape.lift_kept hkeep, shapes, shapes, shape,
        Shape.above_of_two_le htwo, hpieces]
    | false => rw [pieces_introduced hkeep, Shape.lift_introduced hkeep, hpieces]

theorem Setting.flatMap_token {w : String} (hw : w ∈ tokens) {p : Production}
    (hp : p ∈ h.byRhsKey (quote w)) : p.rhs.flatMap (expand n) = [quote w] := by
  obtain ⟨hp, hrhs⟩ := (hs.mem_token hw).mp hp
  rw [hrhs, List.flatMap_singleton,
    hs.explains.sound.expand_of_isSymbol (hs.explains.sole hp hrhs).1]

/-- If what is below the foot stands for what the production there expands to, the whole stands for
what the symbol at the top expands to. -/
theorem Setting.symbols_branch {p : Production} (hp : p ∈ h.productions) {s : Symbol}
    (hr : h.UnitReaches p.lhs s) {cs : List Shape}
    (hcs : (Shape.liftAll g.isSymbol cs).map Shape.symbol = p.rhs.flatMap (expand n)) :
    ((Shape.branch s p.lhs cs).lift g.isSymbol).map Shape.symbol = expand n s := by
  cases hkeep : g.isSymbol s with
  | true =>
    rw [Shape.lift_kept hkeep, hs.explains.sound.expand_of_isSymbol hkeep]
    rfl
  | false =>
    have hfoot : p.lhs = s := by
      obtain hs' | hfoot := hs.isSymbol_of_unitReaches (isNonterminal_lhs hp) hr
      · rw [hkeep] at hs'
        cases hs'
      · exact hfoot
    subst hfoot
    rw [Shape.lift_introduced hkeep, hcs, hs.explains.flatMap_introduced hp hkeep]

theorem Setting.symbols_leaf {w : String} (hw : w ∈ tokens) {p : Production}
    (hp : p ∈ h.byRhsKey (quote w)) (r : Span) :
    (Shape.liftAll g.isSymbol [.leaf w r]).map Shape.symbol = p.rhs.flatMap (expand n) := by
  rw [hs.flatMap_token hw hp, Shape.liftAll_leaf]
  rfl

omit hs in
theorem symbols_pair {b c : Symbol} {x y : Shape} {p : Production} (hrhs : p.rhs = [b, c])
    (hx : (x.lift g.isSymbol).map Shape.symbol = expand n b)
    (hy : (y.lift g.isSymbol).map Shape.symbol = expand n c) :
    (Shape.liftAll g.isSymbol [x, y]).map Shape.symbol = p.rhs.flatMap (expand n) := by
  rw [Shape.liftAll_pair, List.map_append, hx, hy, hrhs, List.flatMap_cons, List.flatMap_singleton]

/-- The pieces of a shape stand for what its symbol expands to. -/
theorem Setting.symbols_lift {s : Symbol} {i j : Nat} {x : Shape}
    (hx : h.SpanShape tokens s i j x) :
    (x.lift g.isSymbol).map Shape.symbol = expand n s := by
  induction hx with
  | @token i w p s hw hp hr =>
    exact hs.symbols_branch (mem_byRhsKey.mp hp).1 hr
      (hs.symbols_leaf (List.mem_of_getElem? hw) hp _)
  | @binary i k j b c s p x y hp hr hx hy ihx ihy =>
    obtain ⟨hp, hrhs⟩ :=
      (hs.mem_binary (isNonterminal_of_spanShape hx) (isNonterminal_of_spanShape hy)).mp hp
    exact hs.symbols_branch hp hr (symbols_pair hrhs ihx ihy)

/-- Productions at the feet of shapes that flatten alike are the same, and so is what lies below. -/
theorem Setting.foot_unique {p q : Production} (hp : p ∈ h.productions) (hq : q ∈ h.productions)
    {s : Symbol} (hpr : h.UnitReaches p.lhs s) (hqr : h.UnitReaches q.lhs s) {cs ds : List Shape}
    (hcs : (Shape.liftAll g.isSymbol cs).map Shape.symbol = p.rhs.flatMap (expand n))
    (hds : (Shape.liftAll g.isSymbol ds).map Shape.symbol = q.rhs.flatMap (expand n))
    (heq : (Shape.branch s p.lhs cs).lift g.isSymbol = (Shape.branch s q.lhs ds).lift g.isSymbol) :
    p.lhs = q.lhs ∧ p.rhs = q.rhs ∧ Shape.liftAll g.isSymbol cs = Shape.liftAll g.isSymbol ds := by
  have hfoot : ∀ r ∈ h.productions, h.UnitReaches r.lhs s → g.isSymbol s = true ∨ r.lhs = s :=
    fun r hr hreach => hs.isSymbol_of_unitReaches (isNonterminal_lhs hr) hreach
  have htop : g.isSymbol s = true ∨ (p.lhs = s ∧ q.lhs = s) := by
    obtain htop | hp := hfoot p hp hpr
    · exact .inl htop
    · exact (hfoot q hq hqr).imp_right fun hq => ⟨hp, hq⟩
  obtain ⟨hlhs, hbelow⟩ := Shape.foot_eq_of_lift_eq htop heq
  refine ⟨hlhs, hs.explains.rhs_unique hp hq hlhs ?_, hbelow⟩
  rw [← hcs, ← hds, hbelow]

/-- Shapes for one symbol that flatten alike are the same. -/
theorem Setting.lift_injective {s : Symbol} {i j k l : Nat} {x y : Shape}
    (hx : h.SpanShape tokens s i j x) (hy : h.SpanShape tokens s k l y)
    (heq : x.lift g.isSymbol = y.lift g.isSymbol) : x = y := by
  induction hx generalizing k l y with
  | @token i w p s hw hp hr =>
    have hmem := List.mem_of_getElem? hw
    obtain ⟨hph, hprhs⟩ := (hs.mem_token hmem).mp hp
    cases hy with
    | @token i' w' q _ hw' hq hr' =>
      have hmem' := List.mem_of_getElem? hw'
      obtain ⟨hqh, -⟩ := (hs.mem_token hmem').mp hq
      obtain ⟨hlhs, -, hbelow⟩ :=
        hs.foot_unique hph hqh hr hr' (hs.symbols_leaf hmem hp _) (hs.symbols_leaf hmem' hq _) heq
      rw [Shape.liftAll_leaf, Shape.liftAll_leaf] at hbelow
      rw [hlhs, hbelow]
    | @binary i' k' j' b c _ q u v hq hr' hu hv =>
      obtain ⟨hqh, hqrhs⟩ :=
        (hs.mem_binary (isNonterminal_of_spanShape hu) (isNonterminal_of_spanShape hv)).mp hq
      have hq' := symbols_pair hqrhs (hs.symbols_lift hu) (hs.symbols_lift hv)
      obtain ⟨-, hrhs, -⟩ := hs.foot_unique hph hqh hr hr' (hs.symbols_leaf hmem hp _) hq' heq
      rw [hprhs, hqrhs] at hrhs
      cases hrhs
  | @binary i m j b c s p x₁ x₂ hp hr hx₁ hx₂ ih₁ ih₂ =>
    obtain ⟨hph, hprhs⟩ :=
      (hs.mem_binary (isNonterminal_of_spanShape hx₁) (isNonterminal_of_spanShape hx₂)).mp hp
    have hp' := symbols_pair hprhs (hs.symbols_lift hx₁) (hs.symbols_lift hx₂)
    cases hy with
    | @token i' w' q _ hw' hq hr' =>
      have hmem' := List.mem_of_getElem? hw'
      obtain ⟨hqh, hqrhs⟩ := (hs.mem_token hmem').mp hq
      obtain ⟨-, hrhs, -⟩ := hs.foot_unique hph hqh hr hr' hp' (hs.symbols_leaf hmem' hq _) heq
      rw [hprhs, hqrhs] at hrhs
      cases hrhs
    | @binary i' m' j' b' c' _ q y₁ y₂ hq hr' hy₁ hy₂ =>
      obtain ⟨hqh, hqrhs⟩ :=
        (hs.mem_binary (isNonterminal_of_spanShape hy₁) (isNonterminal_of_spanShape hy₂)).mp hq
      have hq' := symbols_pair hqrhs (hs.symbols_lift hy₁) (hs.symbols_lift hy₂)
      obtain ⟨hlhs, hrhs, hbelow⟩ := hs.foot_unique hph hqh hr hr' hp' hq' heq
      rw [hprhs, hqrhs] at hrhs
      obtain ⟨rfl, rfl⟩ : b = b' ∧ c = c' := by simpa using hrhs
      -- equal symbols have equally many pieces, so the pieces are divided at one place
      have hlength : (x₁.lift g.isSymbol).length = (y₁.lift g.isSymbol).length := by
        have hsymbols := (hs.symbols_lift hx₁).trans (hs.symbols_lift hy₁).symm
        simpa using congrArg List.length hsymbols
      rw [Shape.liftAll_pair, Shape.liftAll_pair] at hbelow
      obtain ⟨hfirst, hsecond⟩ := List.append_inj hbelow hlength
      rw [hlhs, ih₁ hy₁ hfirst, ih₂ hy₂ hsecond]

end Setting

end Conversion

end Constituency
