import Constituency.Grammar.Basic

/-!
Keys of right-hand sides. As long as no symbol holds a space, a key can be cut at its spaces again.
So, the empty key apart, it belongs to one right-hand side only, and a look-up by it finds exactly
the productions with that right-hand side.
-/
namespace Constituency

/-- The symbol holds no space, so no gap between symbols reads like a part of it. -/
def SpaceFree (s : Symbol) : Prop := ' ' ∉ s.toList

instance (s : Symbol) : Decidable (SpaceFree s) := inferInstanceAs (Decidable (¬ _))

theorem SpaceFree.quote {w : String} (h : SpaceFree w) : SpaceFree (quote w) := by
  simpa [SpaceFree, toList_quote] using h

theorem toList_joinWith (separator : String) (rhs : List Symbol) :
    (joinWith separator rhs).toList = separator.toList.intercalate (rhs.map String.toList) := by
  induction rhs with
  | nil => simp [joinWith]
  | cons s rest ih =>
    cases rest with
    | nil => simp [joinWith]
    | cons t rest =>
      rw [joinWith, String.toList_append, String.toList_append, ih]
      simp [List.append_assoc]

/-- A key cut at its spaces. -/
def cutKey (key : String) : List Symbol := (key.toList.splitOn ' ').map String.ofList

/-- Joining gives the key back. -/
theorem rhsKey_cutKey (key : String) : rhsKey (cutKey key) = key := by
  rw [← String.toList_inj, rhsKey, toList_joinWith, cutKey, List.map_map]
  have hchars : String.toList ∘ String.ofList = id := funext fun _ => String.toList_ofList
  rw [hchars, List.map_id]
  exact List.intercalate_splitOn ' '

/-- Cutting gives the right-hand side back. -/
theorem cutKey_rhsKey {rhs : List Symbol} (hn : rhs ≠ []) (hs : ∀ s ∈ rhs, SpaceFree s) :
    cutKey (rhsKey rhs) = rhs := by
  have hsplit : (rhsKey rhs).toList.splitOn ' ' = rhs.map String.toList := by
    rw [rhsKey, toList_joinWith]
    apply List.splitOn_intercalate
    · intro l hl
      obtain ⟨s, hm, rfl⟩ := List.mem_map.mp hl
      exact hs s hm
    · simpa using hn
  have hchars : String.ofList ∘ String.toList = id := funext fun _ => String.ofList_toList
  rw [cutKey, hsplit, List.map_map, hchars, List.map_id]

theorem cutKey_of_spaceFree {s : Symbol} (h : SpaceFree s) : cutKey s = [s] := by
  have hcut : cutKey (rhsKey [s]) = [s] := cutKey_rhsKey (List.cons_ne_nil s []) (by simpa using h)
  rwa [rhsKey_singleton] at hcut

theorem rhsKey_injective {x y : List Symbol} (hx : x ≠ []) (hy : y ≠ [])
    (hxs : ∀ s ∈ x, SpaceFree s) (hys : ∀ s ∈ y, SpaceFree s) (h : rhsKey x = rhsKey y) :
    x = y := by
  rw [← cutKey_rhsKey hx hxs, h, cutKey_rhsKey hy hys]

/-- A key is empty when nothing stands on the right-hand side, or one empty symbol. -/
theorem rhsKey_eq_empty_iff {rhs : List Symbol} : rhsKey rhs = "" ↔ rhs = [] ∨ rhs = [""] := by
  match rhs with
  | [] => simp
  | [s] => simp
  | s :: t :: rest => simp [rhsKey, joinWith]

/-- Only the empty key belongs to two right-hand sides. -/
theorem rhsKey_eq_iff {x y : List Symbol} (hx : ∀ s ∈ x, SpaceFree s) (hy : ∀ s ∈ y, SpaceFree s) :
    rhsKey x = rhsKey y ↔ x = y ∨ (x = [] ∨ x = [""]) ∧ (y = [] ∨ y = [""]) := by
  rw [← rhsKey_eq_empty_iff, ← rhsKey_eq_empty_iff]
  constructor
  · intro h
    by_cases hempty : rhsKey x = ""
    · exact .inr ⟨hempty, h ▸ hempty⟩
    · have hnx : x ≠ [] := fun e => hempty (rhsKey_eq_empty_iff.mpr (.inl e))
      have hny : y ≠ [] := fun e => hempty (h ▸ rhsKey_eq_empty_iff.mpr (.inl e))
      exact .inl (rhsKey_injective hnx hny hx hy h)
  · rintro (rfl | ⟨hx, hy⟩)
    · rfl
    · rw [hx, hy]

theorem Production.eq_of_sides {p q : Production} (hl : p.lhs = q.lhs) (hr : p.rhs = q.rhs) :
    p = q := by
  obtain ⟨l, r⟩ := p
  obtain ⟨l', r'⟩ := q
  rw [Production.mk.injEq]
  exact ⟨hl, hr⟩

namespace Grammar

theorem isNonterminal_lhs {g : Grammar} {p : Production} (hp : p ∈ g.productions) :
    g.isNonterminal p.lhs = true := isNonterminal_iff.mpr ⟨p, hp, rfl⟩

/-- Whatever a look-up finds has a nonterminal on the left. -/
theorem isNonterminal_of_mem_byRhsKey {g : Grammar} {key : String} {p : Production}
    (hp : p ∈ g.byRhsKey key) :
    g.isNonterminal p.lhs = true := isNonterminal_lhs (mem_byRhsKey.mp hp).1

/-- A look-up finds every production with this right-hand side. -/
theorem mem_byRhs {g : Grammar} {p : Production} (hp : p ∈ g.productions) {rhs : List Symbol}
    (hrhs : p.rhs = rhs) : p ∈ g.byRhs rhs :=
  mem_byRhsKey.mpr ⟨hp, by rw [Production.key, hrhs]⟩

/-- Every right-hand side has a symbol, and none of its symbols holds a space. -/
def HasClearKeys (g : Grammar) : Prop :=
  ∀ p ∈ g.productions, p.rhs ≠ [] ∧ ∀ s ∈ p.rhs, SpaceFree s

/-- A look-up finds the productions whose right-hand side the key is cut into. -/
theorem mem_byRhsKey_iff {g : Grammar} (hg : g.HasClearKeys) {key : String} {p : Production} :
    p ∈ g.byRhsKey key ↔ p ∈ g.productions ∧ p.rhs = cutKey key := by
  rw [mem_byRhsKey]
  refine and_congr_right fun hp => ?_
  constructor
  · rintro rfl
    exact (cutKey_rhsKey (hg p hp).1 (hg p hp).2).symm
  · intro hrhs
    rw [Production.key, hrhs, rhsKey_cutKey]

/-- A look-up finds the productions with this right-hand side and no others. -/
theorem mem_byRhs_iff {g : Grammar} (hg : g.HasClearKeys) {rhs : List Symbol} (hn : rhs ≠ [])
    (hs : ∀ s ∈ rhs, SpaceFree s) {p : Production} :
    p ∈ g.byRhs rhs ↔ p ∈ g.productions ∧ p.rhs = rhs := by
  rw [byRhs, mem_byRhsKey_iff hg, cutKey_rhsKey hn hs]

/-- What is looked up by a right-hand side comes in grammar order. -/
theorem byRhs_eq_filter {g : Grammar} (hg : g.HasClearKeys) {rhs : List Symbol} (hn : rhs ≠ [])
    (hs : ∀ s ∈ rhs, SpaceFree s) : g.byRhs rhs = g.productions.filter fun p => p.rhs = rhs := by
  rw [byRhs, byRhsKey_eq_filter]
  refine List.filter_congr fun p hp => decide_eq_decide.mpr ?_
  have hmem := mem_byRhs_iff hg hn hs (p := p)
  rwa [byRhs, mem_byRhsKey, and_iff_right hp, and_iff_right hp] at hmem

/-- A look-up by a symbol finds the productions with this symbol alone on the right. -/
theorem mem_byRhsKey_singleton {g : Grammar} (hg : g.HasClearKeys) {s : Symbol} (hs : SpaceFree s)
    {p : Production} : p ∈ g.byRhsKey s ↔ p ∈ g.productions ∧ p.rhs = [s] :=
  mem_byRhs_iff hg (List.cons_ne_nil s []) (by simpa using hs)

/-- A look-up by two symbols finds the productions with this pair on the right. -/
theorem mem_byRhsKey_pair {g : Grammar} (hg : g.HasClearKeys) {s t : Symbol} (hs : SpaceFree s)
    (ht : SpaceFree t) {p : Production} :
    p ∈ g.byRhsKey (rhsKey [s, t]) ↔ p ∈ g.productions ∧ p.rhs = [s, t] :=
  mem_byRhs_iff hg (List.cons_ne_nil s [t]) (by simpa using ⟨hs, ht⟩)

end Grammar

/-- Of right-hand sides without a space only the empty one and the one with a single empty symbol
share a key. So where every right-hand side has a symbol, and none of its symbols holds a space, a
look-up by a right-hand side of this kind gives the productions that have it, in grammar order. -/
theorem key_determines_rhs :
    (∀ x y : List Symbol, (∀ s ∈ x, SpaceFree s) → (∀ s ∈ y, SpaceFree s) →
      (rhsKey x = rhsKey y ↔ x = y ∨ (x = [] ∨ x = [""]) ∧ (y = [] ∨ y = [""]))) ∧
    ∀ g : Grammar, g.HasClearKeys → ∀ rhs : List Symbol, rhs ≠ [] → (∀ s ∈ rhs, SpaceFree s) →
      g.byRhs rhs = g.productions.filter fun p => p.rhs = rhs :=
  ⟨fun _ _ hx hy => rhsKey_eq_iff hx hy, fun _ hg _ hn hs => Grammar.byRhs_eq_filter hg hn hs⟩

/-- Empty symbols: alone, where the key is also that of nothing, and beside other symbols, where the
gaps tell them apart. -/
theorem key_determines_rhs_empty_symbols :
    let g := Grammar.ofProductions "S"
      [⟨"S", ["", "A"]⟩, ⟨"A", [""]⟩, ⟨"S", ["A", ""]⟩, ⟨"B", ["", "A"]⟩, ⟨"S", ["", ""]⟩]
    let x := [""]
    let y := ["", "A"]
    (∀ s ∈ x, SpaceFree s) ∧ (∀ s ∈ y, SpaceFree s) ∧ g.HasClearKeys ∧
    (rhsKey x = rhsKey [] ↔
      x = [] ∨ (x = [] ∨ x = [""]) ∧ (([] : List Symbol) = [] ∨ ([] : List Symbol) = [""])) ∧
    (rhsKey x = rhsKey y ↔ x = y ∨ (x = [] ∨ x = [""]) ∧ (y = [] ∨ y = [""])) ∧
    rhsKey x = rhsKey [] ∧ rhsKey x ≠ rhsKey y ∧
    (g.byRhs y = g.productions.filter fun p => p.rhs = y) ∧
    g.byRhs y = [⟨"S", ["", "A"]⟩, ⟨"B", ["", "A"]⟩] := by
  intro g x y
  have hx : ∀ s ∈ x, SpaceFree s := by decide +kernel
  have hy : ∀ s ∈ y, SpaceFree s := by decide +kernel
  have hg : g.HasClearKeys := by
    rw [Grammar.HasClearKeys]
    decide +kernel
  exact ⟨hx, hy, hg, key_determines_rhs.1 x [] hx (by simp), key_determines_rhs.1 x y hx hy,
    by decide +kernel,
    by decide +kernel, key_determines_rhs.2 g hg y (by simp [y]) hy, by decide +kernel⟩

end Constituency
