import Mathlib.Data.List.Induction
import Constituency.Proofs.Naming

/-!
Names requested one after another. What is wished for some parts depends on the parts alone. A
request marks its wish until the name is free, with no limit to how often. Every request ends all
the same. Whatever was requested before and whatever is requested later, the same parts get the same
name and other parts another one.
-/
namespace Constituency.Naming

open Function

/-- The rounds of a request that has come to a name, with its outcome. A name that is reserved, a
symbol of the grammar or known to stand for other parts is marked for the next round. -/
inductive Requests (g : Grammar) (n : Naming) (parts : List Symbol) :
    Symbol → Symbol × Naming → Prop
  | known {s : Symbol} (hr : isReserved s = false) (hs : s ∉ g.symbols)
      (hl : n.lookup s = some parts) :
    Requests g n parts s (s, n)
  | fresh {s : Symbol} (hr : isReserved s = false) (hs : s ∉ g.symbols) (hl : n.lookup s = none) :
    Requests g n parts s (s, (s, parts) :: n)
  | again {s : Symbol} {r : Symbol × Naming} (hs : isReserved s = true ∨ s ∈ g.symbols ∨
      ∃ other, n.lookup s = some other ∧ other ≠ parts) (h : Requests g n parts (mark s) r) :
    Requests g n parts s r

variable {g : Grammar} {n : Naming} {parts : List Symbol}

theorem admits_iff_known_or_fresh {s : Symbol} : n.admits g parts s = true ↔
    isReserved s = false ∧ s ∉ g.symbols ∧ (n.lookup s = some parts ∨ n.lookup s = none) := by
  rw [admits_iff, Grammar.mem_symbols, Bool.not_eq_true]
  cases n.lookup s <;> simp

theorem admits_eq_false_iff {s : Symbol} : n.admits g parts s = false ↔
    isReserved s = true ∨ s ∈ g.symbols ∨ ∃ other, n.lookup s = some other ∧ other ≠ parts := by
  rw [← Bool.not_eq_true, admits_iff, Grammar.mem_symbols]
  cases n.lookup s <;> simp [← Bool.not_eq_false, imp_iff_not_or]

/-- A request comes to one outcome at most. -/
theorem Requests.unique {s : Symbol} {r r' : Symbol × Naming} (h : Requests g n parts s r)
    (h' : Requests g n parts s r') : r = r' := by
  induction h with
  | known hr hs hl =>
    have ha : n.admits g parts _ = true := admits_iff_known_or_fresh.mpr ⟨hr, hs, .inl hl⟩
    cases h' with
    | known => rfl
    | fresh _ _ hl' => cases hl.symm.trans hl'
    | again hs' => cases ha.symm.trans (admits_eq_false_iff.mpr hs')
  | fresh hr hs hl =>
    have ha : n.admits g parts _ = true := admits_iff_known_or_fresh.mpr ⟨hr, hs, .inr hl⟩
    cases h' with
    | known _ _ hl' => cases hl.symm.trans hl'
    | fresh => rfl
    | again hs' => cases ha.symm.trans (admits_eq_false_iff.mpr hs')
  | again hs _ ih =>
    have ha : n.admits g parts _ = false := admits_eq_false_iff.mpr hs
    cases h' with
    | known hr' hs' hl' => cases ha.symm.trans (admits_iff_known_or_fresh.mpr ⟨hr', hs', .inl hl'⟩)
    | fresh hr' hs' hl' => cases ha.symm.trans (admits_iff_known_or_fresh.mpr ⟨hr', hs', .inr hl'⟩)
    | again _ h' => exact ih h'

/-- The rounds go on up to the first name that is admitted. -/
theorem Requests.of_first {s : Symbol} {k : Nat} (hk : First n g parts s k) {r : Symbol × Naming}
    (h : Requests g n parts (mark^[k] s) r) : Requests g n parts s r := by
  induction k generalizing s with
  | zero => exact h
  | succ k ih => exact .again (admits_eq_false_iff.mp hk.refuses_wish) (ih hk.of_succ h)

/-- A wish without a bar is granted after finitely many rounds. -/
theorem requests_iff {s : Symbol} (hbar : '|' ∉ s.toList) {r : Symbol × Naming} :
    Requests g n parts s r ↔ r = n.name g s parts := by
  obtain ⟨k, hlt, hk⟩ := exists_first (n := n) (g := g) hbar parts
  have hends : Requests g n parts s (n.name g s parts) := by
    refine .of_first hk ?_
    obtain ⟨hr, hs, hl | hl⟩ := admits_iff_known_or_fresh.mp hk.admits
    · rw [name, search_of_first hk hlt, hl]
      exact .known hr hs hl
    · rw [name, search_of_first hk hlt, hl]
      exact .fresh hr hs hl
  constructor
  · exact fun h => h.unique hends
  · rintro rfl
    exact hends

/-- A request adds no character but those of the mark. -/
theorem Requests.not_mem {c : Char} (hc : c ∉ "DUMMY_".toList) {s : Symbol} {r : Symbol × Naming}
    (h : Requests g n parts s r) (hs : c ∉ s.toList) : c ∉ r.1.toList := by
  induction h with
  | known => exact hs
  | fresh => exact hs
  | again _ _ ih => exact ih (not_mem_iterate_mark hc hs 1)

/-- The naming after these requests, from one that knows nothing. -/
def after (g : Grammar) (wish : List Symbol → Symbol) (calls : List (List Symbol)) : Naming :=
  calls.foldl (fun n parts => (n.name g (wish parts) parts).2) []

/-- What a request for these parts gets after those requests. -/
def answer (g : Grammar) (wish : List Symbol → Symbol) (calls : List (List Symbol))
    (parts : List Symbol) : Symbol :=
  ((after g wish calls).name g (wish parts) parts).1

section After

variable {wish : List Symbol → Symbol} {calls : List (List Symbol)}

theorem name_after : (after g wish calls).name g (wish parts) parts =
    (answer g wish calls parts, after g wish (calls ++ [parts])) := by
  rw [answer, after, after, List.foldl_concat]

theorem take_add_one_of_call {i : Nat} (hi : calls[i]? = some parts) :
    calls.take (i + 1) = calls.take i ++ [parts] := by
  rw [List.take_add_one, hi, Option.toList_some]

/-- What a request changes, among requests in turn. -/
theorem after_concat_spec (hn : Consistent wish g (after g wish calls))
    (hbar : '|' ∉ (wish parts).toList) :
    Consistent wish g (after g wish (calls ++ [parts])) ∧
      Extends (after g wish calls) (after g wish (calls ++ [parts])) ∧
      (after g wish (calls ++ [parts])).lookup (answer g wish calls parts) = some parts := by
  obtain ⟨hconsistent, hextends, hlookup, -⟩ := name_spec hn parts hbar
  rw [name_after] at hconsistent hextends hlookup
  exact ⟨hconsistent, hextends, hlookup⟩

variable (g)

theorem consistent_after (hbar : ∀ parts ∈ calls, '|' ∉ (wish parts).toList) :
    Consistent wish g (after g wish calls) := by
  induction calls using List.reverseRecOn with
  | nil => exact consistent_nil
  | append_singleton calls parts ih =>
    have hn := ih fun p hp => hbar p (List.mem_append_left _ hp)
    exact (after_concat_spec hn (hbar parts List.mem_concat_self)).1

/-- Later requests change nothing about what is known. -/
theorem extends_after {more : List (List Symbol)}
    (hbar : ∀ parts ∈ calls ++ more, '|' ∉ (wish parts).toList) :
    Extends (after g wish calls) (after g wish (calls ++ more)) := by
  induction more using List.reverseRecOn with
  | nil => simpa using Extends.refl _
  | append_singleton more parts ih =>
    rw [← List.append_assoc] at hbar ⊢
    have hearlier : ∀ p ∈ calls ++ more, '|' ∉ (wish p).toList :=
      fun p hp => hbar p (List.mem_append_left _ hp)
    have hn := consistent_after g hearlier
    exact (ih hearlier).trans (after_concat_spec hn (hbar parts List.mem_concat_self)).2.1

theorem extends_after_take (hbar : ∀ parts ∈ calls, '|' ∉ (wish parts).toList)
    {i j : Nat} (h : i ≤ j) :
    Extends (after g wish (calls.take i)) (after g wish (calls.take j)) := by
  obtain ⟨more, hmore⟩ := List.take_prefix_take_left (l := calls) h
  rw [← hmore]
  refine extends_after g fun p hp => hbar p ?_
  rw [hmore] at hp
  exact List.mem_of_mem_take hp

/-- A name that was given stands for its parts from then on. -/
theorem lookup_after (hbar : ∀ parts ∈ calls, '|' ∉ (wish parts).toList) {i : Nat}
    (hi : calls[i]? = some parts) :
    (after g wish calls).lookup (answer g wish (calls.take i) parts) = some parts := by
  have hlt : i < calls.length := (List.getElem?_eq_some_iff.mp hi).1
  have hn : Consistent wish g (after g wish (calls.take i)) :=
    consistent_after g fun p hp => hbar p (List.mem_of_mem_take hp)
  have hlookup := (after_concat_spec hn (hbar parts (List.mem_of_getElem? hi))).2.2
  rw [← take_add_one_of_call hi] at hlookup
  have hext := extends_after_take g hbar (Nat.succ_le_of_lt hlt)
  rw [List.take_length] at hext
  exact hext _ _ hlookup

end After

/-- Requests in turn, of wishes without a bar. Each of them ends, with a marked form of its wish
that is not reserved and no symbol of the grammar. Two of them get the same name if and only if they
are for the same parts. What is known at some time is never changed. -/
theorem requests_stable (g : Grammar) {wish : List Symbol → Symbol} {calls : List (List Symbol)}
    (hbar : ∀ parts ∈ calls, '|' ∉ (wish parts).toList) :
    (∀ i parts, calls[i]? = some parts →
      (∀ r, Requests g (after g wish (calls.take i)) parts (wish parts) r ↔
        r = (answer g wish (calls.take i) parts, after g wish (calls.take (i + 1)))) ∧
      (∃ k, answer g wish (calls.take i) parts = mark^[k] (wish parts)) ∧
      isReserved (answer g wish (calls.take i) parts) = false ∧
      answer g wish (calls.take i) parts ∉ g.symbols) ∧
    (∀ i j parts others, calls[i]? = some parts → calls[j]? = some others →
      (answer g wish (calls.take i) parts = answer g wish (calls.take j) others ↔ parts = others)) ∧
    ∀ i j, i ≤ j → ∀ s parts, (after g wish (calls.take i)).lookup s = some parts →
      (after g wish (calls.take j)).lookup s = some parts := by
  have hall := consistent_after g hbar
  refine ⟨fun i parts hi => ?_, fun i j parts others hi hj => ?_,
    fun i j h => extends_after_take g hbar h⟩
  · have hlookup := lookup_after g hbar hi
    obtain ⟨k, hanswer, hk⟩ := hall _ _ hlookup
    obtain ⟨hreserved, hsymbol, -⟩ := admits_iff_known_or_fresh.mp (hall.admits hlookup)
    refine ⟨fun r => ?_, ⟨k, hanswer⟩, hreserved, hsymbol⟩
    rw [requests_iff (hbar parts (List.mem_of_getElem? hi)), name_after, take_add_one_of_call hi]
  · have hfirst := lookup_after g hbar hi
    have hsecond := lookup_after g hbar hj
    constructor
    · intro h
      rw [h, hsecond] at hfirst
      exact (Option.some.inj hfirst).symm
    · rintro rfl
      exact hall.injective hfirst hsecond

/-- Wishes that are reserved, that are symbols of the grammar, and that several different parts
share. -/
theorem requests_stable_joined :
    let g := Grammar.ofProductions "S"
      [⟨"S", ["A", "B", "A+B"]⟩, ⟨"DUMMY_A+B", [quote "x"]⟩, ⟨"A", ["#"]⟩, ⟨"A+B", ["DUMMY_#"]⟩]
    let calls := [["A", "B"], ["#"], ["A+B"], [], ["A", "B"], [""], ["DUMMY_A+B"], ["A+B"], []]
    (∀ i parts, calls[i]? = some parts →
      (∀ r, Requests g (after g (joinWith "+") (calls.take i)) parts (joinWith "+" parts) r ↔
        r = (answer g (joinWith "+") (calls.take i) parts,
          after g (joinWith "+") (calls.take (i + 1)))) ∧
      (∃ k, answer g (joinWith "+") (calls.take i) parts = mark^[k] (joinWith "+" parts)) ∧
      isReserved (answer g (joinWith "+") (calls.take i) parts) = false ∧
      answer g (joinWith "+") (calls.take i) parts ∉ g.symbols) ∧
    (∀ i j parts others, calls[i]? = some parts → calls[j]? = some others →
      (answer g (joinWith "+") (calls.take i) parts =
        answer g (joinWith "+") (calls.take j) others ↔ parts = others)) ∧
    ∀ i j, i ≤ j → ∀ s parts, (after g (joinWith "+") (calls.take i)).lookup s = some parts →
      (after g (joinWith "+") (calls.take j)).lookup s = some parts := by
  intro g calls
  exact requests_stable g (by decide +kernel)

end Constituency.Naming
