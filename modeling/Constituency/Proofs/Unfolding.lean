import Constituency.Proofs.References

/-!
Following the references of a chart. An entry refers only to entries that are there, to earlier ones
of its own cell or to some of the two cells that make up its span. So from every place in a cell the
references lead to a tree after finitely many look-ups, each of which finds something. That they are
in order never has to be checked on the way: following them without the check leads to the same
tree.
-/
namespace Constituency.Chart

/-- Following the references from a place ends with this tree, and every cell, entry and token
looked up on the way is found. Nothing is asked about the order of the references. -/
inductive Unfolds (c : Chart) : EntryRef → Tree → Prop
  | leaf {r : EntryRef} {e : Entry} {w : String} (he : c.get r = .ok e) (hd : e.derivation = .leaf)
      (hw : c.tokens[r.row]? = some w) : Unfolds c r (.branch e.symbol r.span [.leaf w r.span])
  | unit {r child : EntryRef} {e : Entry} {t : Tree} (he : c.get r = .ok e)
      (hd : e.derivation = .unit child) (ht : Unfolds c child t) :
      Unfolds c r (.branch e.symbol r.span [t])
  | binary {r left right : EntryRef} {e : Entry} {t u : Tree} (he : c.get r = .ok e)
      (hd : e.derivation = .binary left right) (ht : Unfolds c left t) (hu : Unfolds c right u) :
      Unfolds c r (.branch e.symbol r.span [t, u])

/-- What the entry at a position of the cell for `i..j` refers to: nothing, over one token; an
earlier entry of the cell; or an entry of each of the two cells into which one position cuts the
span. -/
def Founded (c : Chart) (i j idx : Nat) : Derivation → Prop
  | .leaf => j = i + 1
  | .unit child => ∃ v < idx, child = ⟨i, j, v⟩
  | .binary left right => ∃ k m n, i < k ∧ k < j ∧ left = ⟨i, k, m⟩ ∧ right = ⟨k, j, n⟩ ∧
      (∃ cell, c.cell i k = .ok cell ∧ m < cell.length) ∧ ∃ cell, c.cell k j = .ok cell ∧
        n < cell.length

variable {g : Grammar} {tokens : List String} {c : Chart}

/-- The references from a place lead to one tree at most. -/
theorem Unfolds.unique {r : EntryRef} {t u : Tree} (ht : c.Unfolds r t) (hu : c.Unfolds r u) :
    t = u := by
  induction ht generalizing u with
  | leaf he hd hw => cases hu <;> grind
  | unit he hd _ ih => cases hu <;> grind
  | binary he hd _ _ iht ihu => cases hu <;> grind

theorem lt_length_of_get {i j idx : Nat} {e : Entry} (he : c.get ⟨i, j, idx⟩ = .ok e) :
    ∃ cell, c.cell i j = .ok cell ∧ idx < cell.length := by
  obtain ⟨hi, hj, hcell⟩ := get_eq_ok_iff.mp he
  exact ⟨_, cell_eq_ok_iff.mpr ⟨hi, hj, rfl⟩, (List.getElem?_eq_some_iff.mp hcell).1⟩

/-- What an entry of a filled chart refers to is there and comes before it. -/
theorem founded_of_get (h : g.chart tokens = .ok c) {i j idx : Nat} {e : Entry}
    (he : c.get ⟨i, j, idx⟩ = .ok e) : c.Founded i j idx e.derivation := by
  refine get_induction h
    (motive := fun i j idx e => c.Founded i j idx e.derivation) ?leaf ?unit ?binary he
  case leaf =>
    intros
    rfl
  case unit =>
    intro i j idx v b p _ hlt _ _ _
    exact ⟨v, hlt, rfl⟩
  case binary =>
    intro i k j idx m n b b' p _ hik hkj hleft hright _ _ _
    exact ⟨k, m, n, hik, hkj, rfl, rfl, lt_length_of_get hleft, lt_length_of_get hright⟩

/-- From every entry of a filled chart the references lead to its tree. -/
theorem exists_unfolds (h : g.chart tokens = .ok c) {i j idx : Nat} {e : Entry}
    (he : c.get ⟨i, j, idx⟩ = .ok e) :
    ∃ t, c.tree ⟨i, j, idx⟩ = .ok t ∧ c.Unfolds ⟨i, j, idx⟩ t := by
  refine get_induction h (motive := fun i j idx _ =>
    ∃ t, c.tree ⟨i, j, idx⟩ = .ok t ∧ c.Unfolds ⟨i, j, idx⟩ t) ?leaf ?unit ?binary he
  case leaf =>
    intro i idx w p hw _ he
    rw [← tokens_of_chart h] at hw
    have htree := tree_leaf he rfl
    rw [List.getD_eq_getElem?_getD, hw, Option.getD_some] at htree
    exact ⟨_, htree, .leaf he rfl hw⟩
  case unit =>
    intro i j idx v b p _ hlt _ he ⟨t, ht, hunfolds⟩
    exact ⟨_, tree_unit he rfl (EntryRef.precedes_earlier hlt) ht, .unit he rfl hunfolds⟩
  case binary =>
    intro i k j idx m n b b' p _ hik hkj _ _ he ⟨t, ht, hleft⟩ ⟨u, hu, hright⟩
    have htree :=
      tree_binary he rfl (EntryRef.precedes_left hik hkj) (EntryRef.precedes_right hik hkj) ht hu
    exact ⟨_, htree, .binary he rfl hleft hright⟩

/-- No root is without a tree. -/
theorem forall₂_roots_trees (h : g.chart tokens = .ok c) (s : Symbol) :
    List.Forall₂ (fun r t => c.tree r = .ok t ∧ c.Unfolds r t) (c.roots s) (c.trees s) := by
  have hroots : ∀ r ∈ c.roots s, ∃ t, c.tree r = .ok t ∧ c.Unfolds r t := by
    intro r hr
    obtain ⟨idx, e, rfl, he, -⟩ := mem_roots.mp hr
    exact exists_unfolds h he
  rw [trees]
  generalize c.roots s = rs at hroots
  induction rs with
  | nil => exact .nil
  | cons r rs ih =>
    obtain ⟨t, ht, hunfolds⟩ := hroots r List.mem_cons_self
    have hrest := ih fun q hq => hroots q (List.mem_cons_of_mem _ hq)
    rw [List.filterMap_cons_some (b := t) (by rw [ht]; rfl)]
    exact .cons ⟨ht, hunfolds⟩ hrest

/-- The references of a filled chart are well-founded: each is to an entry that is there and comes
before. So the tree of every entry is found, following the references without looking at their order
leads to that tree and to no other, and a symbol has a tree for each of its roots. -/
theorem references_well_founded (h : g.chart tokens = .ok c) :
    (∀ i j, i < j → j ≤ tokens.length → ∃ cell, c.cell i j = .ok cell ∧
      (∀ idx e, cell[idx]? = some e → c.Founded i j idx e.derivation) ∧
      ∀ idx < cell.length, ∃ t, c.tree ⟨i, j, idx⟩ = .ok t ∧ ∀ u, c.Unfolds ⟨i, j, idx⟩ u ↔ u = t) ∧
    ∀ s, List.Forall₂ (fun r t => c.tree r = .ok t ∧ c.Unfolds r t) (c.roots s) (c.trees s) := by
  refine ⟨fun i j hi hj => ⟨_, cell_of_chart h hi hj, ?_, ?_⟩, forall₂_roots_trees h⟩
  · intro idx e he
    rw [← tokens_of_chart h] at hj
    exact founded_of_get h (get_eq_ok_iff.mpr ⟨hi, hj, he⟩)
  · intro idx hidx
    rw [← tokens_of_chart h] at hj
    have hget := get_eq_ok_iff.mpr ⟨hi, hj, List.getElem?_eq_getElem hidx⟩
    obtain ⟨t, ht, hunfolds⟩ := exists_unfolds h hget
    refine ⟨t, ht, fun u => ⟨fun hu => hu.unique hunfolds, ?_⟩⟩
    rintro rfl
    exact hunfolds

/-- Two ways to divide the sentence, each below a cycle of productions with one symbol. -/
theorem references_well_founded_cyclic :
    let g := Grammar.ofProductions "S"
      [⟨"S", ["S", "S"]⟩, ⟨"S", ["X"]⟩, ⟨"X", ["S"]⟩, ⟨"X", [quote "a"]⟩]
    let tokens := ["a", "a", "a"]
    ∃ c, g.chart tokens = .ok c ∧
      (∀ i j, i < j → j ≤ 3 → ∃ cell, c.cell i j = .ok cell ∧
        (∀ idx e, cell[idx]? = some e → c.Founded i j idx e.derivation) ∧
        ∀ idx < cell.length, ∃ t, c.tree ⟨i, j, idx⟩ = .ok t ∧
          ∀ u, c.Unfolds ⟨i, j, idx⟩ u ↔ u = t) ∧
      ∀ s, List.Forall₂ (fun r t => c.tree r = .ok t ∧ c.Unfolds r t) (c.roots s) (c.trees s) := by
  intro g tokens
  have hknown : ∀ t ∈ tokens, g.byRhsKey (quote t) ≠ [] := by decide +kernel
  obtain ⟨c, hchart⟩ := Chart.exists_chart_iff.mpr hknown
  exact ⟨c, hchart, references_well_founded hchart⟩

end Constituency.Chart
