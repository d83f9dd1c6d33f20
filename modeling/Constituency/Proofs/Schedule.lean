import Mathlib.Data.List.Nodup
import Constituency.Chart.Entry
import Constituency.Proofs.Filling
import Constituency.SymbolSet

/-!
The order in which a fill goes about its cells. The last action for a span closes it, and there is
one such action for every span. When the cells for two parts are combined, both were closed before.
An action changes the cell for its own span only, so what is read from a part is what the filled
table holds there.
-/
namespace Constituency

namespace SpanTable

section Order

variable {n i j k : Nat}

theorem mem_spanSteps_close {s : Nat × Nat} : .close i j ∈ spanSteps s.1 s.2 ↔ s = (i, j) := by
  simp [spanSteps, Prod.ext_iff, eq_comm]

theorem mem_spanSteps_combine {s : Nat × Nat} :
    .combine i k j ∈ spanSteps s.1 s.2 ↔ s = (i, j) ∧ i < k ∧ k < j := by
  obtain ⟨a, b⟩ := s
  simp only [spanSteps, List.mem_append, List.mem_map, List.mem_range'_1, List.mem_singleton,
    FillStep.combine.injEq, reduceCtorEq, or_false, Prod.mk.injEq]
  constructor
  · rintro ⟨m, hm, rfl, rfl, rfl⟩
    omega
  · rintro ⟨⟨rfl, rfl⟩, hik, hkj⟩
    exact ⟨k, by omega, rfl, rfl, rfl⟩

theorem mem_schedule {a : FillStep} : a ∈ schedule n ↔ ∃ s ∈ spans n, a ∈ spanSteps s.1 s.2 :=
  List.mem_flatMap

theorem close_mem_schedule : .close i j ∈ schedule n ↔ i < j ∧ j ≤ n := by
  simp [mem_schedule, mem_spanSteps_close, mem_spans]

theorem combine_mem_schedule : .combine i k j ∈ schedule n ↔ i < k ∧ k < j ∧ j ≤ n := by
  simp only [mem_schedule, mem_spanSteps_combine]
  constructor
  · rintro ⟨s, hs, rfl, hik, hkj⟩
    exact ⟨hik, hkj, (mem_spans.mp hs).2⟩
  · rintro ⟨hik, hkj, hj⟩
    exact ⟨(i, j), mem_spans.mpr ⟨Nat.lt_trans hik hkj, hj⟩, rfl, hik, hkj⟩

theorem target_le_of_mem_schedule {a : FillStep} (h : a ∈ schedule n) : a.target.2 ≤ n := by
  obtain ⟨s, hs, ha⟩ := mem_schedule.mp h
  rw [target_of_mem_spanSteps ha]
  exact (mem_spans.mp hs).2

/-- The order of the actions: by their spans, and for one span by the positions at which it is
combined, with closing at the end. -/
inductive Earlier : FillStep → FillStep → Prop
  | span {a b : FillStep} (h : Before a.target b.target) : Earlier a b
  | position {i k m j : Nat} (h : k < m) : Earlier (.combine i k j) (.combine i m j)
  | closing {i k j : Nat} : Earlier (.combine i k j) (.close i j)

theorem Earlier.ne {a b : FillStep} (h : Earlier a b) : a ≠ b := by
  rintro rfl
  cases h with
  | span h => exact not_before_inside (Nat.le_refl _) (Nat.le_refl _) h
  | position h => omega

theorem Earlier.target {a b : FillStep} (h : Earlier a b) :
    Before a.target b.target ∨ a.target = b.target := by
  cases h with
  | span h => exact .inl h
  | position _ => exact .inr rfl
  | closing => exact .inr rfl

/-- Closing is the last action for its span. -/
theorem Earlier.before_of_close {a : FillStep} (h : Earlier (.close i j) a) :
    Before (i, j) a.target := by
  cases h with
  | span h => exact h

theorem pairwise_spanSteps (s : Nat × Nat) : (spanSteps s.1 s.2).Pairwise Earlier := by
  rw [spanSteps, List.pairwise_append, List.pairwise_map]
  refine ⟨(List.pairwise_lt_range' 1).imp .position, List.pairwise_singleton _ _, ?_⟩
  simp only [List.mem_map, List.mem_singleton]
  rintro _ ⟨k, -, rfl⟩ _ rfl
  exact .closing

theorem pairwise_schedule (n : Nat) : (schedule n).Pairwise Earlier := by
  rw [schedule, List.pairwise_flatMap]
  refine ⟨fun s _ => pairwise_spanSteps s, (pairwise_spans n).imp fun {s t} hst => ?_⟩
  intro a ha b hb
  apply Earlier.span
  rw [target_of_mem_spanSteps ha, target_of_mem_spanSteps hb]
  exact hst

theorem nodup_schedule (n : Nat) : (schedule n).Nodup := (pairwise_schedule n).imp Earlier.ne

theorem count_close (hi : i < j) (hj : j ≤ n) : (schedule n).count (.close i j) = 1 :=
  List.count_eq_one_of_mem (nodup_schedule n) (close_mem_schedule.mpr ⟨hi, hj⟩)

theorem schedule_at {m : Nat} {a : FillStep} (ha : (schedule n)[m]? = some a) :
    schedule n = (schedule n).take m ++ a :: (schedule n).drop (m + 1) := by
  obtain ⟨hm, rfl⟩ := List.getElem?_eq_some_iff.mp ha
  rw [← List.drop_eq_getElem_cons hm, List.take_append_drop]

theorem earlier_of_mem_drop {m : Nat} {a b : FillStep} (ha : (schedule n)[m]? = some a)
    (hb : b ∈ (schedule n).drop (m + 1)) : Earlier a b := by
  have hp := pairwise_schedule n
  rw [schedule_at ha, List.pairwise_append, List.pairwise_cons] at hp
  exact hp.2.1.1 b hb

/-- An action that does not come later than another comes before it. -/
theorem mem_take_of_not_earlier {m : Nat} {a b : FillStep} (ha : (schedule n)[m]? = some a)
    (hb : b ∈ schedule n) (hne : b ≠ a) (hlater : ¬ Earlier a b) : b ∈ (schedule n).take m := by
  rw [schedule_at ha, List.mem_append, List.mem_cons] at hb
  obtain hb | hb | hb := hb
  · exact hb
  · exact absurd hb hne
  · exact absurd (earlier_of_mem_drop ha hb) hlater

/-- When two parts are combined, both were closed before. -/
theorem closed_of_combine {m : Nat} (ha : (schedule n)[m]? = some (.combine i k j)) :
    .close i k ∈ (schedule n).take m ∧ .close k j ∈ (schedule n).take m := by
  obtain ⟨hik, hkj, hj⟩ := combine_mem_schedule.mp (List.mem_of_getElem? ha)
  -- a part lies inside the span, so it cannot have its turn after it
  have part : ∀ p q, p < q → i ≤ p → q ≤ j → (i, j) ≠ (p, q) →
      .close p q ∈ (schedule n).take m := by
    intro p q hpq hp hq hne
    have hmem : .close p q ∈ schedule n := close_mem_schedule.mpr ⟨hpq, by omega⟩
    refine mem_take_of_not_earlier ha hmem (by simp) fun h => ?_
    exact h.target.elim (not_before_inside hp hq) hne
  exact ⟨part i k hik (by omega) (by omega) (by simp; omega),
    part k j hkj (by omega) (by omega) (by simp; omega)⟩

end Order

section Stages

variable {κ : Type} [Cell κ] {g : Grammar} {tokens : List String}

/-- The table of a fill after this many actions. -/
def stage (κ : Type) [Cell κ] (g : Grammar) (tokens : List String) (m : Nat) : Grid κ :=
  ((schedule tokens.length).take m).foldl (FillStep.apply g) (seeded κ g tokens)

@[simp] theorem size_stage (m : Nat) : (stage κ g tokens m).size = tokens.length := by
  rw [stage, size_foldl_apply, size_seeded]

theorem stage_add (m d : Nat) : stage κ g tokens (m + d) =
    (((schedule tokens.length).drop m).take d).foldl (FillStep.apply g) (stage κ g tokens m) := by
  rw [stage, List.take_add, List.foldl_append, stage]

theorem stage_add_one {m : Nat} {a : FillStep} (ha : (schedule tokens.length)[m]? = some a) :
    stage κ g tokens (m + 1) = a.apply g (stage κ g tokens m) := by
  rw [stage, List.take_add_one, ha, Option.toList_some, List.foldl_concat, stage]

theorem fill_eq_stage (hknown : ∀ t ∈ tokens, Known g t) :
    fill κ g tokens = .ok (stage κ g tokens (schedule tokens.length).length) := by
  rw [fill_eq_ok_iff, stage, List.take_length]
  exact ⟨hknown, rfl⟩

/-- An action changes no cell but that for its own span. -/
theorem get_stage_other {m k l : Nat} {a : FillStep} (ha : (schedule tokens.length)[m]? = some a)
    (hl : l ≤ tokens.length) (hne : (k, l) ≠ a.target) :
    (stage κ g tokens (m + 1)).get k l = (stage κ g tokens m).get k l := by
  have htarget := target_le_of_mem_schedule (List.mem_of_getElem? ha)
  rw [stage_add_one ha]
  exact get_apply_other (by simpa using htarget) (by simpa using hl) (Ne.symm hne)

/-- No action after the closing of a span changes its cell. -/
theorem get_stage_of_closed {i j p m : Nat} (ha : (schedule tokens.length)[p]? = some (.close i j))
    (hm : p < m) :
    (stage κ g tokens m).get i j = (stage κ g tokens (p + 1)).get i j := by
  obtain ⟨-, hj⟩ := close_mem_schedule.mp (List.mem_of_getElem? ha)
  obtain ⟨d, rfl⟩ := Nat.exists_eq_add_of_le (Nat.succ_le_of_lt hm)
  rw [Nat.succ_eq_add_one, stage_add]
  refine get_foldl_apply_other (fun a hlater => ?_) (by simpa using hj)
  have hlater := List.mem_of_mem_take hlater
  have htarget := target_le_of_mem_schedule (List.mem_of_mem_drop hlater)
  have hbefore := (earlier_of_mem_drop ha hlater).before_of_close
  refine ⟨by simpa using htarget, fun e => ?_⟩
  rw [e] at hbefore
  exact not_before_inside (Nat.le_refl i) (Nat.le_refl j) hbefore

/-- A closed cell holds what the filled table holds there. -/
theorem get_stage_eq_last {i j m : Nat} (h : .close i j ∈ (schedule tokens.length).take m) :
    (stage κ g tokens m).get i j = (stage κ g tokens (schedule tokens.length).length).get i j := by
  obtain ⟨p, hp, hclose⟩ := List.mem_take_iff_getElem.mp h
  have ha : (schedule tokens.length)[p]? = some (.close i j) :=
    List.getElem?_eq_some_iff.mpr ⟨by omega, hclose⟩
  have hm : p < m := by omega
  have hlast : p < (schedule tokens.length).length := by omega
  rw [get_stage_of_closed ha hm, get_stage_of_closed ha hlast]

/-- Combining reads from the parts what the filled table holds there. -/
theorem get_stage_combine {i k j m : Nat}
    (ha : (schedule tokens.length)[m]? = some (.combine i k j)) :
    (stage κ g tokens (m + 1)).get i j =
      Cell.combine g i k j ((stage κ g tokens (schedule tokens.length).length).get i k)
        ((stage κ g tokens (schedule tokens.length).length).get k j)
          ((stage κ g tokens m).get i j) := by
  obtain ⟨hleft, hright⟩ := closed_of_combine ha
  obtain ⟨hik, hkj, hj⟩ := combine_mem_schedule.mp (List.mem_of_getElem? ha)
  rw [stage_add_one ha, FillStep.apply, Grid.get_modify_same _ (by simp; omega) (by simpa using hj),
    get_stage_eq_last hleft, get_stage_eq_last hright]

/-- Closing a span closes what its cell holds by then. -/
theorem get_stage_close {i j m : Nat} (ha : (schedule tokens.length)[m]? = some (.close i j)) :
    (stage κ g tokens (m + 1)).get i j = Cell.close g i j ((stage κ g tokens m).get i j) := by
  obtain ⟨hi, hj⟩ := close_mem_schedule.mp (List.mem_of_getElem? ha)
  rw [stage_add_one ha, FillStep.apply, Grid.get_modify_same _ (by simp; omega) (by simpa using hj)]

/-- How a fill that ends in this table goes about its cells. Every span is closed once, and this
closes what its cell holds by then. When two parts are combined, both were closed before, and what
is read from them is what the table holds. An action changes no cell but that for its own span, and
from when a span is closed its cell is as in the table. -/
structure Orderly (κ : Type) [Cell κ] (g : Grammar) (tokens : List String) (table : Grid κ) :
    Prop where
  ends : stage κ g tokens (schedule tokens.length).length = table
  closed_once : ∀ i j, i < j → j ≤ tokens.length → (schedule tokens.length).count (.close i j) = 1
  parts_closed : ∀ m i k j, (schedule tokens.length)[m]? = some (.combine i k j) →
    .close i k ∈ (schedule tokens.length).take m ∧ .close k j ∈ (schedule tokens.length).take m
  combined : ∀ m i k j, (schedule tokens.length)[m]? = some (.combine i k j) →
    (stage κ g tokens (m + 1)).get i j =
      Cell.combine g i k j (table.get i k) (table.get k j) ((stage κ g tokens m).get i j)
  closed : ∀ m i j, (schedule tokens.length)[m]? = some (.close i j) →
    (stage κ g tokens (m + 1)).get i j = Cell.close g i j ((stage κ g tokens m).get i j)
  others_kept : ∀ m a, (schedule tokens.length)[m]? = some a → ∀ k l, l ≤ tokens.length →
    (k, l) ≠ a.target → (stage κ g tokens (m + 1)).get k l = (stage κ g tokens m).get k l
  closed_kept : ∀ m i j, .close i j ∈ (schedule tokens.length).take m →
    (stage κ g tokens m).get i j = table.get i j

/-- Whatever the cells hold, a fill for known tokens comes to a table, and it is orderly. -/
theorem fill_orderly (κ : Type) [Cell κ] {g : Grammar} {tokens : List String}
    (hknown : ∀ t ∈ tokens, Known g t) :
    ∃ table, fill κ g tokens = .ok table ∧ Orderly κ g tokens table := by
  refine ⟨_, fill_eq_stage hknown, ?_⟩
  exact {
    ends := rfl
    closed_once := fun i j => count_close
    parts_closed := fun m i k j => closed_of_combine
    combined := fun m i k j => get_stage_combine
    closed := fun m i j => get_stage_close
    others_kept := fun m a ha k l => get_stage_other ha
    closed_kept := fun m i j => get_stage_eq_last }

/-- Two symbols that derive each other, over three tokens. -/
theorem fill_orderly_cyclic :
    let g :=
      Grammar.ofProductions "S" [⟨"S", ["S", "S"]⟩, ⟨"S", [quote "x"]⟩, ⟨"T", ["S"]⟩, ⟨"S", ["T"]⟩]
    let tokens := ["x", "x", "x"]
    (∀ t ∈ tokens, Known g t) ∧
    (∃ table, fill SymbolSet g tokens = .ok table ∧ Orderly SymbolSet g tokens table) ∧
    (∃ table, fill (List Entry) g tokens = .ok table ∧ Orderly (List Entry) g tokens table) ∧
    (schedule tokens.length)[7]? = some (.combine 0 1 3) := by
  intro g tokens
  have hknown : ∀ t ∈ tokens, Known g t := by
    simp only [Known]
    decide +kernel
  exact ⟨hknown, fill_orderly SymbolSet hknown, fill_orderly (List Entry) hknown, by decide⟩

end Stages

end SpanTable

end Constituency
