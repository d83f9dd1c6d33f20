import Mathlib.Logic.Relation
import Mathlib.Order.WellFounded
import Constituency.Tree.Flatten

/-!
Flattening in single steps. A step puts the children of one branch that is not kept in its place,
anywhere below the root. Every step takes one label away, so stepping ends; and no step changes what
a tree flattens to, so it ends in the flattened tree, in whatever order the branches go. Flattening
again for other labels leaves what one flattening for the labels kept both times would leave.
-/
namespace Constituency.SyntaxTree

open Relation

variable {α β : Type} {keep : α → Bool}

/-- Below the root, one branch that is not kept has given way to its children. -/
inductive Splices (keep : α → Bool) : SyntaxTree α β → SyntaxTree α β → Prop
  | child {l m : α} {s r : Span} {us : List (SyntaxTree α β)} (hm : keep m = false)
      (front back : List (SyntaxTree α β)) :
      Splices keep (.branch l s (front ++ .branch m r us :: back))
        (.branch l s (front ++ us ++ back))
  | deeper {l : α} {s : Span} {t u : SyntaxTree α β} (h : Splices keep t u)
      (front back : List (SyntaxTree α β)) :
      Splices keep (.branch l s (front ++ t :: back)) (.branch l s (front ++ u :: back))

/-- No branch below the root is left to give way. -/
def Spliced (keep : α → Bool) (t : SyntaxTree α β) : Prop := ∀ u, ¬ Splices keep t u

theorem labelsAll_append (ts us : List (SyntaxTree α β)) :
    labelsAll (ts ++ us) = labelsAll ts ++ labelsAll us := by
  induction ts with
  | nil => rfl
  | cons t ts ih => simp only [List.cons_append, labelsAll, ih, List.append_assoc]

theorem flattenAll_append (ts us : List (SyntaxTree α β)) :
    flattenAll keep (ts ++ us) = flattenAll keep ts ++ flattenAll keep us := by
  induction ts with
  | nil => rfl
  | cons t ts ih => simp only [List.cons_append, flattenAll, ih, List.append_assoc]

theorem lift_branch_of_not {m : α} (hm : keep m = false) (r : Span) (us : List (SyntaxTree α β)) :
    lift keep (.branch m r us) = us := if_neg (by simp [hm])

mutual

@[simp] theorem leaves_flatten (keep : α → Bool) :
    (t : SyntaxTree α β) → (t.flatten keep).leaves = t.leaves
  | .leaf _ _ => rfl
  | .branch _ _ ts => leavesAll_flattenAll keep ts

@[simp] theorem leavesAll_flattenAll (keep : α → Bool) :
    (ts : List (SyntaxTree α β)) → leavesAll (flattenAll keep ts) = leavesAll ts
  | [] => rfl
  | t :: ts => by
    rw [flattenAll, leavesAll_append, leavesAll_lift, leaves_flatten keep t,
      leavesAll_flattenAll keep ts, leavesAll]

end

mutual

/-- Among its siblings a flattened tree has the kept ones of its labels, the root's included. -/
theorem labelsAll_lift_flatten (keep : α → Bool) :
    (t : SyntaxTree α β) → labelsAll ((t.flatten keep).lift keep) = t.labels.filter keep
  | .leaf _ _ => rfl
  | .branch l _ ts => by
    have hbelow := labelsAll_flattenAll keep ts
    cases hl : keep l with
    | true => simp [flatten, lift, hl, labels, labelsAll, hbelow]
    | false => simp [flatten, lift, hl, labels, hbelow]

theorem labelsAll_flattenAll (keep : α → Bool) :
    (ts : List (SyntaxTree α β)) → labelsAll (flattenAll keep ts) = (labelsAll ts).filter keep
  | [] => rfl
  | t :: ts => by
    rw [flattenAll, labelsAll_append, labelsAll_lift_flatten keep t, labelsAll_flattenAll keep ts,
      labelsAll, List.filter_append]

end

/-- Flattening keeps the root's label, whatever it is, and of the others those to be kept. -/
theorem labels_flatten_branch (keep : α → Bool) (l : α) (s : Span) (ts : List (SyntaxTree α β)) :
    (flatten keep (.branch l s ts)).labels = l :: (labelsAll ts).filter keep := by
  rw [flatten, labels, labelsAll_flattenAll]

/-- A step takes a label away. -/
theorem Splices.length_labels {t u : SyntaxTree α β} (h : Splices keep t u) :
    u.labels.length < t.labels.length := by
  induction h with
  | child hm front back =>
    simp only [labels, labelsAll_append, labelsAll, List.length_cons, List.length_append]
    omega
  | deeper h front back ih =>
    simp only [labels, labelsAll_append, labelsAll, List.length_cons, List.length_append]
    omega

/-- Below the root of a tree that allows a step, a label is not to be kept. -/
theorem Splices.exists_label {t u : SyntaxTree α β} (h : Splices keep t u) :
    ∃ m ∈ t.labels.tail, keep m = false := by
  induction h with
  | @child l m _ _ _ hm front back =>
    refine ⟨m, ?_, hm⟩
    simp [labels, labelsAll_append, labelsAll]
  | @deeper l s t u _ front back ih =>
    obtain ⟨m, hmem, hm⟩ := ih
    have hlabel : m ∈ t.labels := List.mem_of_mem_tail hmem
    refine ⟨m, ?_, hm⟩
    simp [labels, labelsAll_append, labelsAll, hlabel]

/-- A step leaves what the tree flattens to. -/
theorem Splices.flatten_eq {t u : SyntaxTree α β} (h : Splices keep t u) :
    u.flatten keep = t.flatten keep := by
  induction h with
  | child hm front back =>
    simp only [flatten, flattenAll_append, flattenAll, lift_branch_of_not hm, List.append_assoc]
  | deeper h front back ih => simp only [flatten, flattenAll_append, flattenAll, ih]

theorem wellFounded_splices : WellFounded fun u t : SyntaxTree α β => Splices keep t u :=
  (measure fun t : SyntaxTree α β => t.labels.length).wf.mono fun _ _ h => h.length_labels

theorem flatten_eq_of_reaches {t u : SyntaxTree α β} (h : ReflTransGen (Splices keep) t u) :
    u.flatten keep = t.flatten keep := by
  induction h with
  | refl => rfl
  | tail _ hstep ih => exact hstep.flatten_eq.trans ih

/-- A flattened tree allows no step. -/
theorem spliced_flatten (keep : α → Bool) (t : SyntaxTree α β) : Spliced keep (t.flatten keep) := by
  intro u h
  obtain ⟨m, hmem, hm⟩ := h.exists_label
  cases t with
  | leaf w s => cases hmem
  | branch l s ts =>
    rw [labels_flatten_branch, List.tail_cons, List.mem_filter, hm] at hmem
    cases hmem.2

theorem reaches_below {t u : SyntaxTree α β} (h : ReflTransGen (Splices keep) t u) (l : α)
    (s : Span) (front back : List (SyntaxTree α β)) :
    ReflTransGen (Splices keep) (.branch l s (front ++ t :: back))
      (.branch l s (front ++ u :: back)) := by
  induction h with
  | refl => exact .refl
  | tail _ hstep ih => exact ih.tail (.deeper hstep front back)

theorem reaches_lift (keep : α → Bool) (t : SyntaxTree α β) (l : α) (s : Span)
    (front back : List (SyntaxTree α β)) :
    ReflTransGen (Splices keep) (.branch l s (front ++ t :: back))
      (.branch l s (front ++ t.lift keep ++ back)) := by
  cases t with
  | leaf w r => simpa [lift] using ReflTransGen.refl
  | branch m r us =>
    cases hm : keep m with
    | true => simpa [lift, hm] using ReflTransGen.refl
    | false =>
      rw [lift_branch_of_not hm]
      exact .single (.child hm front back)

mutual

/-- Steps lead from a tree to the flattened tree. -/
theorem reaches_flatten (keep : α → Bool) :
    (t : SyntaxTree α β) → ReflTransGen (Splices keep) t (t.flatten keep)
  | .leaf _ _ => .refl
  | .branch l s ts => reaches_flattenAll keep ts l s []

/-- Below a root the children are flattened from left to right, each before it gives way. -/
theorem reaches_flattenAll (keep : α → Bool) :
    (ts : List (SyntaxTree α β)) → (l : α) → (s : Span) → (front : List (SyntaxTree α β)) →
      ReflTransGen (Splices keep) (.branch l s (front ++ ts))
        (.branch l s (front ++ flattenAll keep ts))
  | [], _, _, _ => .refl
  | t :: ts, l, s, front => by
    have hchild := reaches_below (reaches_flatten keep t) l s front ts
    have hlift := reaches_lift keep (t.flatten keep) l s front ts
    have hrest := reaches_flattenAll keep ts l s (front ++ (t.flatten keep).lift keep)
    rw [flattenAll, ← List.append_assoc]
    exact (hchild.trans hlift).trans hrest

end

/-- Stepping ends, and where it ends is the flattened tree. -/
theorem reaches_spliced_iff {t u : SyntaxTree α β} :
    (ReflTransGen (Splices keep) t u ∧ Spliced keep u) ↔ u = t.flatten keep := by
  constructor
  · intro ⟨hreach, hdone⟩
    obtain heq | ⟨v, hstep, -⟩ := (reaches_flatten keep u).cases_head
    · exact heq.trans (flatten_eq_of_reaches hreach)
    · exact absurd hstep (hdone v)
  · rintro rfl
    exact ⟨reaches_flatten keep t, spliced_flatten keep t⟩

/-- The flattened tree is the normal form of a tree. Stepping ends in it and in no other tree, in
whatever order the steps are taken. It has the leaves of the tree; a leaf is its own normal form,
and a branch keeps its root, whose label comes before those of the other labels that are kept, in
their order. -/
theorem flatten_normal_form (keep : α → Bool) (t : SyntaxTree α β) :
    (WellFounded fun v u : SyntaxTree α β => Splices keep u v) ∧
    (∀ u, (ReflTransGen (Splices keep) t u ∧ Spliced keep u) ↔ u = t.flatten keep) ∧
    (t.flatten keep).leaves = t.leaves ∧
    (∀ w s, t = .leaf w s → t.flatten keep = t) ∧
    ∀ l s ts, t = .branch l s ts →
      (∃ us, t.flatten keep = .branch l s us) ∧
      (t.flatten keep).labels = l :: t.labels.tail.filter keep := by
  refine ⟨wellFounded_splices, fun u => reaches_spliced_iff, leaves_flatten keep t, ?_, ?_⟩
  · rintro w s rfl
    rfl
  · rintro l s ts rfl
    exact ⟨⟨flattenAll keep ts, rfl⟩, labels_flatten_branch keep l s ts⟩

/-- Branches inside one another that are not kept, one of them without children, below such a
root. -/
theorem flatten_normal_form_nested :
    let keep : String → Bool := fun l => l = "A"
    let x : SyntaxTree String String := .leaf "x" ⟨0, 1⟩
    let y : SyntaxTree String String := .leaf "y" ⟨1, 2⟩
    let t := SyntaxTree.branch "A+B" ⟨0, 2⟩
      [.branch "B+C" ⟨0, 1⟩ [.branch "C" ⟨0, 0⟩ [], .branch "A" ⟨0, 1⟩ [.branch "C" ⟨0, 1⟩ [x]]], y]
    let u := SyntaxTree.branch "A+B" ⟨0, 2⟩ [.branch "A" ⟨0, 1⟩ [x], y]
    (∀ v, (ReflTransGen (Splices keep) t v ∧ Spliced keep v) ↔ v = u) ∧ u.leaves = t.leaves ∧
      u.labels = "A+B" :: t.labels.tail.filter keep ∧ x.flatten keep = x := by
  intro keep x y t u
  have hflat : t.flatten keep = u := by decide
  obtain ⟨-, hnormal, hleaves, -, hbranch⟩ := flatten_normal_form keep t
  rw [hflat] at hnormal hleaves
  have hlabels := (hbranch _ _ _ rfl).2
  rw [hflat] at hlabels
  exact ⟨hnormal, hleaves, hlabels, (flatten_normal_form keep x).2.2.2.1 _ _ rfl⟩

mutual

/-- Among its siblings a tree flattened for two sets of labels is as if flattened for those in both.
The root needs this form: it gives way with the first set, with the second, or not at all. -/
theorem flattenAll_lift_flatten (first second : α → Bool) :
    (t : SyntaxTree α β) → flattenAll second ((t.flatten first).lift first) =
      (t.flatten fun l => first l && second l).lift fun l => first l && second l
  | .leaf _ _ => rfl
  | .branch l s ts => by
    have hbelow := flattenAll_flattenAll first second ts
    cases hl : first l with
    | true => simp [flatten, lift, hl, flattenAll, hbelow]
    | false => simp [flatten, lift, hl, hbelow]

theorem flattenAll_flattenAll (first second : α → Bool) :
    (ts : List (SyntaxTree α β)) →
      flattenAll second (flattenAll first ts) = flattenAll (fun l => first l && second l) ts
  | [] => rfl
  | t :: ts => by
    rw [flattenAll, flattenAll_append, flattenAll_lift_flatten first second t,
      flattenAll_flattenAll first second ts, ← flattenAll]

end

/-- The root stays both times, whatever its label. -/
theorem flatten_flatten (first second : α → Bool) (t : SyntaxTree α β) :
    (t.flatten first).flatten second = t.flatten fun l => first l && second l := by
  cases t with
  | leaf w s => rfl
  | branch l s ts => rw [flatten, flatten, flatten, flattenAll_flattenAll]

/-- Flattening for two sets of labels, one after the other, is flattening for the labels in both. So
a second time changes nothing, and the order of the two sets does not matter. -/
theorem flatten_inter (first second : α → Bool) (t : SyntaxTree α β) :
    (t.flatten first).flatten second = (t.flatten fun l => first l && second l) ∧
    (t.flatten first).flatten first = t.flatten first ∧
    (t.flatten first).flatten second = (t.flatten second).flatten first := by
  refine ⟨flatten_flatten first second t, ?_, ?_⟩
  · simp only [flatten_flatten, Bool.and_self]
  · simp only [flatten_flatten, Bool.and_comm]

end Constituency.SyntaxTree
