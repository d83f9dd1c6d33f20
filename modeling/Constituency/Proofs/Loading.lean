import Constituency.Proofs.Key
import Constituency.Proofs.Statements

/-!
What a definition can say. The symbols of a loaded grammar are words of the text, so they have no
blank in them. A left-hand side opens a line that is no comment and no directive, and every
right-hand side comes from a stretch between bars with at least one word and no arrow in it.
-/
namespace Constituency

open Text Definition

/-- A text without blanks. -/
def Blankless (s : String) : Prop := ∀ c ∈ s.toList, isBlank c = false

instance (s : String) : Decidable (Blankless s) := List.decidableBAll _ s.toList

theorem Blankless.spaceFree {s : String} (h : Blankless s) : SpaceFree s := by
  intro hm
  cases h ' ' hm

/-- A text that reading takes for one word. -/
structure IsWord (s : String) : Prop where
  ne_empty : s ≠ ""
  blankless : Blankless s

/-- A word that opens a rule: at the start of a line it is no comment and no directive. -/
structure LeftWord (s : String) : Prop extends IsWord s where
  no_comment : s.toList.head? ≠ some '#'
  no_directive : s ≠ "%start"

/-- A word of an alternative: it holds no bar and is no arrow. -/
structure RightWord (s : String) : Prop extends IsWord s where
  no_bar : '|' ∉ s.toList
  no_arrow : s ≠ "->"

/-- A production as a definition can give it. -/
structure Production.Loadable (p : Production) : Prop where
  lhs : LeftWord p.lhs
  rhs_ne_nil : p.rhs ≠ []
  rhs : ∀ s ∈ p.rhs, RightWord s

/-- A grammar as a definition can give it. -/
structure Grammar.Loadable (g : Grammar) : Prop where
  start : IsWord g.start
  productions : ∀ p ∈ g.productions, p.Loadable

instance (s : String) : Decidable (IsWord s) :=
  decidable_of_iff (s ≠ "" ∧ Blankless s) ⟨fun h => ⟨h.1, h.2⟩, fun h => ⟨h.1, h.2⟩⟩

instance (s : String) : Decidable (LeftWord s) :=
  decidable_of_iff (IsWord s ∧ s.toList.head? ≠ some '#' ∧ s ≠ "%start")
    ⟨fun h => ⟨h.1, h.2.1, h.2.2⟩, fun h => ⟨h.1, h.2, h.3⟩⟩

instance (s : String) : Decidable (RightWord s) :=
  decidable_of_iff (IsWord s ∧ '|' ∉ s.toList ∧ s ≠ "->")
    ⟨fun h => ⟨h.1, h.2.1, h.2.2⟩, fun h => ⟨h.1, h.2, h.3⟩⟩

instance (p : Production) : Decidable p.Loadable :=
  decidable_of_iff (LeftWord p.lhs ∧ p.rhs ≠ [] ∧ ∀ s ∈ p.rhs, RightWord s)
    ⟨fun h => ⟨h.1, h.2.1, h.2.2⟩, fun h => ⟨h.1, h.2, h.3⟩⟩

instance (g : Grammar) : Decidable g.Loadable :=
  decidable_of_iff (IsWord g.start ∧ ∀ p ∈ g.productions, p.Loadable)
    ⟨fun h => ⟨h.1, h.2⟩, fun h => ⟨h.1, h.2⟩⟩

theorem Production.Loadable.blankless_lhs {p : Production} (h : p.Loadable) : Blankless p.lhs :=
  h.lhs.blankless

theorem Production.Loadable.bar_rhs {p : Production} (h : p.Loadable) :
    ∀ s ∈ p.rhs, '|' ∉ s.toList :=
  fun s hs => (h.rhs s hs).no_bar

theorem isWord_of_mem_words {s w : List Char} (h : w ∈ words s) : IsWord (String.ofList w) where
  ne_empty := by simpa using ne_nil_of_mem_words h
  blankless := by
    intro c hc
    rw [String.toList_ofList] at hc
    exact (mem_of_mem_words h c hc).2

namespace Statement

/-- A statement as a line can make it. -/
structure Loadable (s : Statement) : Prop where
  start : ∀ x, s.start? = some x → IsWord x
  productions : ∀ p ∈ s.productions, p.Loadable

theorem loadable_nothing : nothing.Loadable := ⟨by simp [start?], by simp [productions]⟩

theorem leftWord_of_opensRule {line lhs : List Char} (h : OpensRule lhs) (hlhs : lhs ∈ words line) :
    LeftWord (String.ofList lhs) where
  toIsWord := isWord_of_mem_words hlhs
  no_comment := by
    rw [String.toList_ofList]
    exact h.1
  no_directive := fun heq => h.2 (String.toList_ofList.symm.trans (congrArg String.toList heq))

theorem rightWord_of_isAlternative {part w : List Char} (h : IsAlternative part) (hbar : '|' ∉ part)
    (hw : w ∈ words part) : RightWord (String.ofList w) where
  toIsWord := isWord_of_mem_words hw
  no_bar := by
    rw [String.toList_ofList]
    exact fun hc => hbar (mem_of_mem_words hw _ hc).1
  no_arrow := by
    intro heq
    have hword : w = arrow := String.toList_ofList.symm.trans (congrArg String.toList heq)
    exact h.2 (hword ▸ hw)

theorem Says.loadable {line : List Char} {s : Statement} (h : Says line s) : s.Loadable := by
  cases h with
  | blank => exact loadable_nothing
  | comment => exact loadable_nothing
  | @start symbol ws h =>
    have hsymbol : IsWord (String.ofList symbol) := isWord_of_mem_words (s := line) (by simp [h])
    exact ⟨by simpa [start?] using hsymbol, by simp [productions]⟩
  | @rule lhs text hlhs htext hparts =>
    refine ⟨by simp [start?], fun p hp => ?_⟩
    obtain ⟨part, hpart, rfl⟩ := List.mem_map.mp hp
    obtain ⟨third, ws, -, hwords⟩ := htext.words_eq
    have hbar : '|' ∉ part := by
      intro hm
      rw [List.splitOn_eq_splitOnP] at hpart
      simpa using (mem_splitOnP hpart _ hm).2
    have hmem : lhs ∈ words line := by simp [hwords]
    refine ⟨leftWord_of_opensRule hlhs hmem, ?_, fun s hs => ?_⟩
    · simpa [alternative] using (hparts part hpart).1
    · obtain ⟨w, hw, rfl⟩ := List.mem_map.mp hs
      exact rightWord_of_isAlternative (hparts part hpart) hbar hw

end Statement

namespace Definition

/-- What a text says can be loaded, its start symbol too. -/
theorem loadable_of_read {text : String} {d : Definition} (h : read text = .ok d) :
    (∀ p ∈ d.productions, p.Loadable) ∧ ∀ x, d.startSymbol = some x → IsWord x := by
  rw [read] at h
  obtain ⟨ss, hall, rfl⟩ := exists_of_map_eq_ok h
  have hlines := Statement.readAll_eq_ok_iff.mp hall
  obtain ⟨hss, -⟩ :=
    (List.forall₂_and_left ss _).mp (hlines.imp fun _ _ hs => ⟨hs.loadable, hs⟩).flip
  have hproductions : ∀ p ∈ (ofStatements ss).productions, p.Loadable := by
    intro p hp
    obtain ⟨s, hs, hp⟩ := List.mem_flatMap.mp hp
    exact (hss s hs).productions p hp
  refine ⟨hproductions, fun x hx => ?_⟩
  obtain hx | ⟨-, hx⟩ := Option.or_eq_some_iff.mp hx
  · obtain ⟨s, hs, hx⟩ := List.mem_filterMap.mp (List.mem_of_getLast? hx)
    exact (hss s hs).start x hx
  · obtain ⟨p, hp, rfl⟩ := Option.map_eq_some_iff.mp hx
    exact (hproductions p (List.mem_of_head? hp)).lhs.toIsWord

end Definition

namespace Grammar

theorem productions_ne_nil_of_build {start : Symbol} {ps : List Production} {g : Grammar}
    (h : build start ps = .ok g) : g.productions ≠ [] := by
  obtain ⟨hne, rfl⟩ := build_eq_ok_iff.mp h
  obtain ⟨p, hp⟩ := List.exists_mem_of_ne_nil ps hne
  exact List.ne_nil_of_mem (mem_productions_ofProductions.mpr hp)

/-- Loading reads a definition and builds the grammar of its start symbol and its productions. -/
theorem exists_build_of_load {text : String} {g : Grammar} (h : load text = .ok g) : ∃ d start,
    Definition.read text = .ok d ∧ d.startSymbol = some start ∧
    build start d.productions = .ok g := by
  rw [load] at h
  cases hread : Definition.read text with
  | error e =>
    rw [hread] at h
    cases h
  | ok d =>
    cases hstart : d.startSymbol with
    | none =>
      simp only [hread, hstart] at h
      cases h
    | some start =>
      simp only [hread, hstart] at h
      exact ⟨d, start, rfl, hstart, h⟩

theorem productions_ne_nil_of_load {text : String} {g : Grammar} (h : load text = .ok g) :
    g.productions ≠ [] := by
  obtain ⟨d, start, -, -, hbuild⟩ := exists_build_of_load h
  exact productions_ne_nil_of_build hbuild

/-- A loaded grammar is as a definition can give it. -/
theorem Loadable.of_load {text : String} {g : Grammar} (h : load text = .ok g) : g.Loadable := by
  obtain ⟨d, start, hread, hstart, hbuild⟩ := exists_build_of_load h
  obtain ⟨-, rfl⟩ := build_eq_ok_iff.mp hbuild
  obtain ⟨hproductions, hword⟩ := Definition.loadable_of_read hread
  exact ⟨hword start hstart, fun p hp => hproductions p (mem_productions_ofProductions.mp hp)⟩

end Grammar

/-- The productions of a loaded grammar are as a definition can give them. -/
theorem loadable_of_load {text : String} {g : Grammar} (h : Grammar.load text = .ok g) :
    ∀ p ∈ g.productions, p.Loadable := (Grammar.Loadable.of_load h).productions

theorem hasClearKeys_of_loadable {g : Grammar} (h : ∀ p ∈ g.productions, p.Loadable) :
    g.HasClearKeys :=
  fun p hp => ⟨(h p hp).rhs_ne_nil, fun s hs => ((h p hp).rhs s hs).blankless.spaceFree⟩

end Constituency
