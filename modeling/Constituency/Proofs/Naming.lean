import Mathlib.Data.List.Nodup
import Mathlib.Data.List.Perm.Subperm
import Mathlib.Data.Nat.Find
import Mathlib.Logic.Function.Iterate
import Constituency.Naming

/-!
Names of introduced symbols are found, stable and distinct. The marked forms of a wish all have
different lengths, so among enough of them one is free. A name once refused to some parts is refused
to them forever, so asking for the same parts again finds the same name, and the first free form of
a wish decides the name of its parts alone.
-/
namespace Constituency.Naming

open Function

theorem length_mark (s : Symbol) : (mark s).length = 6 + s.length := by
  rw [mark, String.length_append]
  rfl

theorem length_iterate_mark (s : Symbol) (k : Nat) : (mark^[k] s).length = 6 * k + s.length := by
  induction k with
  | zero => simp
  | succ k ih =>
    rw [iterate_succ_apply', length_mark, ih]
    omega

theorem iterate_mark_injective (s : Symbol) : Injective fun k => mark^[k] s := by
  intro k l h
  have hlength := congrArg String.length h
  simp only [length_iterate_mark] at hlength
  omega

theorem toList_mark (s : Symbol) : (mark s).toList = "DUMMY_".toList ++ s.toList := by
  rw [mark, String.toList_append]

theorem not_mem_iterate_mark {c : Char} (hc : c ∉ "DUMMY_".toList) {s : Symbol} (h : c ∉ s.toList)
    (k : Nat) : c ∉ (mark^[k] s).toList := by
  induction k with
  | zero => exact h
  | succ k ih =>
    rw [iterate_succ_apply', toList_mark, List.mem_append, not_or]
    exact ⟨hc, ih⟩

/-- Marking clears every reserved form without a bar. -/
theorem isReserved_mark {s : Symbol} (h : '|' ∉ s.toList) : isReserved (mark s) = false := by
  have hbar : '|' ∉ (mark s).toList := not_mem_iterate_mark (by decide) h 1
  have hhead : (mark s).toList.head? = some 'D' := by rw [toList_mark]; rfl
  have hne : ∀ t : Symbol, t.toList.head? ≠ some 'D' → mark s ≠ t := by
    intro t ht heq
    rw [heq] at hhead
    exact ht hhead
  have hempty : (mark s).isEmpty = false := by
    rw [Bool.eq_false_iff, ne_eq, String.isEmpty_iff]
    exact hne "" (by decide)
  have hstart : (mark s == "%start") = false := beq_false_of_ne (hne _ (by decide))
  have harrow : (mark s == "->") = false := beq_false_of_ne (hne _ (by decide))
  simp [isReserved, hempty, hhead, hbar, hstart, harrow]

/-- One naming knows all that another knows. -/
def Extends (n n' : Naming) : Prop := ∀ s parts, n.lookup s = some parts → n'.lookup s = some parts

theorem Extends.refl (n : Naming) : Extends n n := fun _ _ h => h

theorem Extends.trans {a b c : Naming} (hab : Extends a b) (hbc : Extends b c) : Extends a c :=
  fun s parts h => hbc s parts (hab s parts h)

theorem extends_cons {n : Naming} {s : Symbol} (h : n.lookup s = none) (parts : List Symbol) :
    Extends n ((s, parts) :: n) := by
  intro t known ht
  have hne : t ≠ s := by
    rintro rfl
    rw [h] at ht
    cases ht
  rwa [List.lookup_cons, beq_false_of_ne hne]

variable {g : Grammar} {n n' : Naming} {parts : List Symbol}

theorem admits_iff {s : Symbol} : n.admits g parts s = true ↔
    isReserved s = false ∧ g.isSymbol s = false ∧ ∀ known, n.lookup s = some known →
      known = parts := by
  cases h : n.lookup s <;> simp [admits, h, and_assoc]

/-- A refused name stays refused. -/
theorem Extends.admits {s : Symbol} (h : Extends n n') (ha : n'.admits g parts s = true) :
    n.admits g parts s = true := by
  rw [admits_iff] at ha ⊢
  exact ⟨ha.1, ha.2.1, fun known hk => ha.2.2 known (h s known hk)⟩

/-- The first admitted form of a wish, with the number of its marks. -/
structure First (n : Naming) (g : Grammar) (parts : List Symbol) (wish : Symbol) (k : Nat) :
    Prop where
  admits : n.admits g parts (mark^[k] wish) = true
  refuses : ∀ l < k, n.admits g parts (mark^[l] wish) = false

theorem First.unique {wish : Symbol} {k l : Nat} (hk : First n g parts wish k)
    (hl : First n g parts wish l) : k = l := by
  obtain h | h | h := Nat.lt_trichotomy k l
  · cases hk.admits.symm.trans (hl.refuses k h)
  · exact h
  · cases hl.admits.symm.trans (hk.refuses l h)

theorem First.refuses_wish {wish : Symbol} {k : Nat} (h : First n g parts wish (k + 1)) :
    n.admits g parts wish = false := h.refuses 0 (Nat.succ_pos k)

/-- After a wish is refused, the first form of its mark is wanted. -/
theorem First.of_succ {wish : Symbol} {k : Nat} (h : First n g parts wish (k + 1)) :
    First n g parts (mark wish) k where
  admits := h.admits
  refuses := fun l hl => h.refuses (l + 1) (Nat.succ_lt_succ hl)

theorem search_of_first {wish : Symbol} {k tries : Nat} (h : First n g parts wish k)
    (hk : k < tries) :
    n.search g parts tries wish = mark^[k] wish := by
  induction tries generalizing wish k with
  | zero => omega
  | succ tries ih =>
    rw [search]
    cases k with
    | zero => exact if_pos h.admits
    | succ k =>
      rw [h.refuses_wish, ih h.of_succ (by omega), iterate_succ_apply]
      rfl

/-- The names in the way of others. -/
def occupied (n : Naming) (g : Grammar) : List Symbol :=
  n.map Prod.fst ++ g.productions.flatMap fun p => p.lhs :: p.rhs

theorem length_occupied (n : Naming) (g : Grammar) : (n.occupied g).length + 2 = n.tries g := by
  rw [occupied, tries, List.length_append, List.length_map]

theorem mem_occupied {s : Symbol} (hr : isReserved s = false) (h : n.admits g parts s = false) :
    s ∈ n.occupied g := by
  rw [occupied, List.mem_append]
  by_cases hs : g.isSymbol s = true
  · right
    rw [Grammar.isSymbol_iff, Grammar.isNonterminal_iff, Grammar.occursRight_iff] at hs
    rw [List.mem_flatMap]
    obtain ⟨p, hp, rfl⟩ | ⟨p, hp, hs⟩ := hs
    · exact ⟨p, hp, List.mem_cons_self⟩
    · exact ⟨p, hp, List.mem_cons_of_mem _ hs⟩
  · left
    cases hl : n.lookup s with
    | none =>
      have ha : n.admits g parts s = true := admits_iff.mpr ⟨hr, by simpa using hs, by simp [hl]⟩
      rw [h] at ha
      cases ha
    | some known =>
      obtain ⟨pair, hm, hpair⟩ := List.lookup_isSome_iff.mp (by rw [hl]; rfl : (n.lookup s).isSome)
      exact List.mem_map.mpr ⟨pair, hm, (by simpa using hpair : s = pair.1).symm⟩

/-- Among the forms that are tried one is admitted: the marked ones are all different, and there are
more of them than names in the way. -/
theorem exists_first {wish : Symbol} (hbar : '|' ∉ wish.toList) (parts : List Symbol) :
    ∃ k < n.tries g, First n g parts wish k := by
  have hex : ∃ k < n.tries g, n.admits g parts (mark^[k] wish) = true := by
    by_contra hnone
    push Not at hnone
    have hin : (List.range ((n.occupied g).length + 1)).map (fun k => mark^[k + 1] wish) ⊆
        n.occupied g := by
      intro s hs
      obtain ⟨k, hk, rfl⟩ := List.mem_map.mp hs
      rw [List.mem_range] at hk
      have hlt : k + 1 < n.tries g := by
        rw [← length_occupied]
        omega
      have hr : isReserved (mark^[k + 1] wish) = false := by
        rw [iterate_succ_apply']
        exact isReserved_mark (not_mem_iterate_mark (by decide) hbar k)
      exact mem_occupied hr (by simpa using hnone (k + 1) hlt)
    have hnodup : ((List.range ((n.occupied g).length + 1)).map fun k => mark^[k + 1] wish).Nodup :=
      List.nodup_range.map fun k l h => Nat.succ.inj (iterate_mark_injective wish h)
    have hlength := (List.subperm_of_subset hnodup hin).length_le
    rw [List.length_map, List.length_range] at hlength
    omega
  classical
  have hfind := Nat.find_spec hex
  refine ⟨Nat.find hex, hfind.1, hfind.2, fun l hl => ?_⟩
  have hmin := Nat.find_min hex hl
  simp only [not_and, Bool.not_eq_true] at hmin
  exact hmin (Nat.lt_trans hl hfind.1)

/-- Every known symbol is the first admitted form of the wish for its parts. -/
def Consistent (wish : List Symbol → Symbol) (g : Grammar) (n : Naming) : Prop :=
  ∀ s parts, n.lookup s = some parts → ∃ k, s = mark^[k] (wish parts) ∧
    First n g parts (wish parts) k

variable {wish : List Symbol → Symbol}

theorem consistent_nil : Consistent wish g [] := by
  intro s parts h
  cases h

theorem Consistent.admits (hn : Consistent wish g n) {s : Symbol} (h : n.lookup s = some parts) :
    n.admits g parts s = true := by
  obtain ⟨k, rfl, hk⟩ := hn s parts h
  exact hk.admits

/-- Known symbols are no symbols of the grammar. -/
theorem Consistent.isSymbol (hn : Consistent wish g n) {s : Symbol} (h : n.lookup s = some parts) :
    g.isSymbol s = false := (admits_iff.mp (hn.admits h)).2.1

/-- Different symbols stand for different parts. -/
theorem Consistent.injective (hn : Consistent wish g n) {s t : Symbol}
    (hs : n.lookup s = some parts) (ht : n.lookup t = some parts) : s = t := by
  obtain ⟨k, rfl, hk⟩ := hn s parts hs
  obtain ⟨l, rfl, hl⟩ := hn t parts ht
  rw [hk.unique hl]

/-- A new name for its parts keeps a naming consistent. -/
theorem Consistent.cons (hn : Consistent wish g n) {k : Nat} (hk : First n g parts (wish parts) k)
    (hnone : n.lookup (mark^[k] (wish parts)) = none) :
    Consistent wish g ((mark^[k] (wish parts), parts) :: n) := by
  have hext := extends_cons hnone parts
  have hstay : ∀ s known, n.admits g known s = false →
      Naming.admits ((mark^[k] (wish parts), parts) :: n) g known s = false := by
    intro s known h
    rw [Bool.eq_false_iff] at h ⊢
    exact fun ha => h (hext.admits ha)
  have hold : ∀ s known, n.lookup s = some known → known ≠ parts → s ≠ mark^[k] (wish parts) := by
    rintro s known h - rfl
    rw [hnone] at h
    cases h
  intro s known h
  rw [List.lookup_cons] at h
  by_cases hs : s = mark^[k] (wish parts)
  · subst hs
    rw [beq_self_eq_true] at h
    obtain rfl : parts = known := Option.some.inj h
    refine ⟨k, rfl, ?_, fun l hl => hstay _ _ (hk.refuses l hl)⟩
    have ha := admits_iff.mp hk.admits
    exact admits_iff.mpr ⟨ha.1, ha.2.1, by simp⟩
  · rw [beq_false_of_ne hs] at h
    obtain ⟨l, rfl, hl⟩ := hn s known h
    refine ⟨l, rfl, ?_, fun m hm => hstay _ _ (hl.refuses m hm)⟩
    have ha := admits_iff.mp hl.admits
    refine admits_iff.mpr ⟨ha.1, ha.2.1, fun other ho => ?_⟩
    rw [List.lookup_cons, beq_false_of_ne hs] at ho
    exact ha.2.2 other ho

/-- Asking for a name gives the first admitted form of the wish. From then on this symbol is known
to stand for the parts, and no other symbol is known that was not known before. -/
theorem name_spec (hn : Consistent wish g n) (parts : List Symbol)
    (hbar : '|' ∉ (wish parts).toList) :
    Consistent wish g (n.name g (wish parts) parts).2 ∧ Extends n (n.name g (wish parts) parts).2 ∧
      (n.name g (wish parts) parts).2.lookup (n.name g (wish parts) parts).1 = some parts ∧
      ∀ s known, (n.name g (wish parts) parts).2.lookup s = some known →
        n.lookup s = some known ∨ s = (n.name g (wish parts) parts).1 := by
  obtain ⟨k, hlt, hk⟩ := exists_first (n := n) (g := g) hbar parts
  have hsearch := search_of_first hk hlt
  cases hlookup : n.lookup (mark^[k] (wish parts)) with
  | none =>
    have hname : n.name g (wish parts) parts =
        (mark^[k] (wish parts), (mark^[k] (wish parts), parts) :: n) := by
      rw [name, hsearch, hlookup]
    rw [hname]
    refine ⟨hn.cons hk hlookup, extends_cons hlookup parts, by simp, fun s known hs => ?_⟩
    by_cases h : s = mark^[k] (wish parts)
    · exact .inr h
    · rw [List.lookup_cons, beq_false_of_ne h] at hs
      exact .inl hs
  | some known =>
    have hname : n.name g (wish parts) parts = (mark^[k] (wish parts), n) := by
      rw [name, hsearch, hlookup]
    obtain rfl := (admits_iff.mp hk.admits).2.2 known hlookup
    rw [hname]
    exact ⟨hn, .refl n, hlookup, fun _ _ hs => .inl hs⟩

end Constituency.Naming
