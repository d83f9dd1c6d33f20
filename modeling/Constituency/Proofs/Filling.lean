import Mathlib.Data.List.Basic
import Constituency.SpanTable

/-!
What a fill computes. The spans are closed in an order in which both parts of a span come before the
span itself, and no action changes a cell other than its own. So once the fill is over, every cell
satisfies one equation over the cells below it. All that is proved about filled tables starts from
this equation; the order of the actions is not needed again.
-/
namespace Constituency

namespace SpanTable

variable {κ : Type} [Cell κ] {g : Grammar}

/-- What the cells for the parts of a span make of the cell for the span. -/
def settle (g : Grammar) (cells : Nat → Nat → κ) (i j : Nat) (cell : κ) : κ :=
  Cell.close g i j ((List.range' (i + 1) (j - (i + 1))).foldl
    (fun cell k => Cell.combine g i k j (cells i k) (cells k j) cell) cell)

/-- Only the cells for the parts matter. -/
theorem settle_congr {cells cells' : Nat → Nat → κ} {i j : Nat} (cell : κ)
    (h : ∀ k, i < k → k < j → cells i k = cells' i k ∧ cells k j = cells' k j) :
    settle g cells i j cell = settle g cells' i j cell := by
  unfold settle
  congr 1
  apply List.foldl_ext
  intro c k hk
  rw [List.mem_range'_1] at hk
  obtain ⟨hl, hr⟩ := h k (by omega) (by omega)
  rw [hl, hr]

/-- The table after all actions for one span. -/
def fillSpan (g : Grammar) (table : Grid κ) (s : Nat × Nat) : Grid κ :=
  (spanSteps s.1 s.2).foldl (FillStep.apply g) table

theorem foldl_schedule (n : Nat) (table : Grid κ) :
    (schedule n).foldl (FillStep.apply g) table = (spans n).foldl (fillSpan g) table := by
  rw [schedule, List.foldl_flatMap]
  rfl

@[simp] theorem size_apply (table : Grid κ) (a : FillStep) :
    (a.apply g table).size = table.size := by
  cases a <;> rfl

@[simp] theorem size_foldl_apply (table : Grid κ) (steps : List FillStep) :
    (steps.foldl (FillStep.apply g) table).size = table.size := by
  induction steps generalizing table with
  | nil => rfl
  | cons a steps ih => rw [List.foldl_cons, ih, size_apply]

/-- An action changes the cell for its own span only. -/
theorem get_apply_other {table : Grid κ} {a : FillStep} {k l : Nat} (ha : a.target.2 ≤ table.size)
    (hl : l ≤ table.size) (h : a.target ≠ (k, l)) : (a.apply g table).get k l = table.get k l := by
  cases a with
  | combine i m j =>
    exact Grid.get_modify_other table ha hl (fun e => h (Prod.ext e.1 e.2)) _
  | close i j =>
    exact Grid.get_modify_other table ha hl (fun e => h (Prod.ext e.1 e.2)) _

/-- Actions for other spans leave a cell as it is. -/
theorem get_foldl_apply_other {table : Grid κ} {steps : List FillStep} {k l : Nat}
    (ht : ∀ a ∈ steps, a.target.2 ≤ table.size ∧ a.target ≠ (k, l)) (hl : l ≤ table.size) :
    (steps.foldl (FillStep.apply g) table).get k l = table.get k l := by
  induction steps generalizing table with
  | nil => rfl
  | cons a steps ih =>
    obtain ⟨ha, hne⟩ := ht a List.mem_cons_self
    rw [List.foldl_cons,
      ih (fun b hb => by simpa using ht b (List.mem_cons_of_mem _ hb)) (by simpa using hl)]
    exact get_apply_other ha hl hne

theorem target_of_mem_spanSteps {i j : Nat} {a : FillStep} (h : a ∈ spanSteps i j) :
    a.target = (i, j) := by
  simp only [spanSteps, List.mem_append, List.mem_map, List.mem_singleton] at h
  obtain ⟨k, -, rfl⟩ | rfl := h <;> rfl

theorem get_fillSpan_other {table : Grid κ} {s : Nat × Nat} {k l : Nat} (hs : s.2 ≤ table.size)
    (hl : l ≤ table.size) (h : s ≠ (k, l)) : (fillSpan g table s).get k l = table.get k l := by
  refine get_foldl_apply_other (fun a ha => ?_) hl
  rw [target_of_mem_spanSteps ha]
  exact ⟨hs, h⟩

/-- Combining at inner positions reads cells that the combining does not change. -/
theorem get_foldl_combine {i j : Nat} (hi : i < j) (ks : List Nat)
    (hks : ∀ k ∈ ks, i < k ∧ k < j) {table : Grid κ} (hj : j ≤ table.size) :
    ((ks.map (FillStep.combine i · j)).foldl (FillStep.apply g) table).get i j =
      ks.foldl (fun cell k => Cell.combine g i k j (table.get i k) (table.get k j) cell)
        (table.get i j) := by
  induction ks generalizing table with
  | nil => rfl
  | cons k ks ih =>
    have hk := hks k List.mem_cons_self
    rw [List.map_cons, List.foldl_cons, List.foldl_cons,
      ih (fun m hm => hks m (List.mem_cons_of_mem _ hm)) (by simpa using hj)]
    have hsame : ((FillStep.combine i k j).apply g table).get i j =
        Cell.combine g i k j (table.get i k) (table.get k j) (table.get i j) :=
      Grid.get_modify_same table (by omega) hj _
    rw [hsame]
    apply List.foldl_ext
    intro c m hm
    have hm := hks m (List.mem_cons_of_mem _ hm)
    have hl : ((FillStep.combine i k j).apply g table).get i m = table.get i m :=
      get_apply_other hj (by omega) (by simp [FillStep.target]; omega)
    have hr : ((FillStep.combine i k j).apply g table).get m j = table.get m j :=
      get_apply_other hj hj (by simp [FillStep.target]; omega)
    rw [hl, hr]

/-- The actions for a span settle its cell. -/
theorem get_fillSpan_same {table : Grid κ} {i j : Nat} (hi : i < j) (hj : j ≤ table.size) :
    (fillSpan g table (i, j)).get i j = settle g table.get i j (table.get i j) := by
  have hc := get_foldl_combine (g := g) hi (List.range' (i + 1) (j - (i + 1)))
    (fun k hk => by rw [List.mem_range'_1] at hk; omega) hj
  simp only [fillSpan, spanSteps, List.foldl_append, List.foldl_cons, List.foldl_nil, settle]
  rw [← hc]
  exact Grid.get_modify_same _ (by simp; omega) (by simpa using hj) _

/-- The order in which spans are closed: by their right end, and the shorter span first. -/
def Before (s t : Nat × Nat) : Prop := s.2 < t.2 ∨ (s.2 = t.2 ∧ t.1 < s.1)

/-- A span does not come before one inside it. -/
theorem not_before_inside {s t : Nat × Nat} (hl : s.1 ≤ t.1) (hr : t.2 ≤ s.2) : ¬ Before s t := by
  simp only [Before]
  omega

theorem pairwise_spans (n : Nat) : (spans n).Pairwise Before := by
  rw [spans, List.pairwise_flatMap]
  constructor
  · intro j _
    rw [List.pairwise_map, List.pairwise_reverse]
    exact List.pairwise_lt_range.imp fun h => .inr ⟨rfl, h⟩
  · refine List.pairwise_lt_range.imp fun {a b} hab => ?_
    intro s hs t ht
    simp only [List.mem_map] at hs ht
    obtain ⟨x, -, rfl⟩ := hs
    obtain ⟨y, -, rfl⟩ := ht
    exact .inl (by simp only; omega)

/-- When the turn of a span comes, it is not closed yet, but its parts are. -/
theorem parts_closed_before {n : Nat} {done rest : List (Nat × Nat)} {i j : Nat}
    (h : spans n = done ++ (i, j) :: rest) :
    (i, j) ∉ done ∧ ∀ k, i < k → k < j → (i, k) ∈ done ∧ (k, j) ∈ done := by
  have hp := pairwise_spans n
  rw [h, List.pairwise_append, List.pairwise_cons] at hp
  obtain ⟨-, ⟨hrest, -⟩, hdone⟩ := hp
  have hij : (i, j) ∈ spans n := by rw [h]; simp
  rw [mem_spans] at hij
  have earlier : ∀ s : Nat × Nat, s.1 < s.2 → s.2 ≤ n → s ≠ (i, j) → ¬ Before (i, j) s →
      s ∈ done := by
    intro s hs hn hne hb
    have hm : s ∈ spans n := mem_spans.mpr ⟨hs, hn⟩
    rw [h, List.mem_append, List.mem_cons] at hm
    obtain hm | hm | hm := hm
    · exact hm
    · exact absurd hm hne
    · exact absurd (hrest s hm) hb
  constructor
  · intro hm
    exact not_before_inside (Nat.le_refl i) (Nat.le_refl j)
      (hdone (i, j) hm (i, j) List.mem_cons_self)
  · intro k hik hkj
    constructor
    · exact earlier (i, k) hik (by simp only; omega) (by simp; omega)
        (not_before_inside (Nat.le_refl i) (Nat.le_of_lt hkj))
    · exact earlier (k, j) hkj hij.2 (by simp; omega)
        (not_before_inside (Nat.le_of_lt hik) (Nat.le_refl j))

/-- The invariant of a fill: the spans that had their turn are settled over the others of them, and
the rest of the table is as it was. -/
structure Settled (g : Grammar) (n : Nat) (ground : Nat → Nat → κ) (done : List (Nat × Nat))
    (table : Grid κ) : Prop where
  size : table.size = n
  parts : ∀ i j, (i, j) ∈ done → ∀ k, i < k → k < j → (i, k) ∈ done ∧ (k, j) ∈ done
  settled : ∀ i j, (i, j) ∈ done → table.get i j = settle g table.get i j (ground i j)
  untouched : ∀ i j, i < j → j ≤ n → (i, j) ∉ done → table.get i j = ground i j

/-- One more span has its turn. -/
theorem Settled.step {n : Nat} {ground : Nat → Nat → κ} {done : List (Nat × Nat)} {table : Grid κ}
    (h : Settled g n ground done table) {i j : Nat} (hi : i < j) (hj : j ≤ n) (hnew : (i, j) ∉ done)
    (hparts : ∀ k, i < k → k < j → (i, k) ∈ done ∧ (k, j) ∈ done)
    (hbound : ∀ s ∈ done, s.2 ≤ n) :
    Settled g n ground (done ++ [(i, j)]) (fillSpan g table (i, j)) := by
  have hsize : j ≤ table.size := by rw [h.size]; exact hj
  have keep : ∀ k l, (k, l) ∈ done → (fillSpan g table (i, j)).get k l = table.get k l := by
    intro k l hm
    refine get_fillSpan_other hsize ?_ (fun e => hnew (e ▸ hm))
    rw [h.size]
    exact hbound (k, l) hm
  refine ⟨?_, ?_, ?_, ?_⟩
  · rw [fillSpan, size_foldl_apply, h.size]
  · intro a b hm k hak hkb
    simp only [List.mem_append, List.mem_singleton, Prod.mk.injEq] at hm
    obtain hm | ⟨rfl, rfl⟩ := hm
    · obtain ⟨hl, hr⟩ := h.parts a b hm k hak hkb
      exact ⟨List.mem_append_left _ hl, List.mem_append_left _ hr⟩
    · obtain ⟨hl, hr⟩ := hparts k hak hkb
      exact ⟨List.mem_append_left _ hl, List.mem_append_left _ hr⟩
  · intro a b hm
    simp only [List.mem_append, List.mem_singleton, Prod.mk.injEq] at hm
    obtain hm | ⟨rfl, rfl⟩ := hm
    · rw [keep a b hm, h.settled a b hm]
      apply settle_congr
      intro k hak hkb
      obtain ⟨hl, hr⟩ := h.parts a b hm k hak hkb
      exact ⟨(keep a k hl).symm, (keep k b hr).symm⟩
    · rw [get_fillSpan_same hi hsize, h.untouched a b hi hj hnew]
      apply settle_congr
      intro k hak hkb
      obtain ⟨hl, hr⟩ := hparts k hak hkb
      exact ⟨(keep a k hl).symm, (keep k b hr).symm⟩
  · intro a b hab hb hm
    simp only [List.mem_append, List.mem_singleton, not_or] at hm
    rw [get_fillSpan_other hsize (by rw [h.size]; exact hb) (fun e => hm.2 e.symm)]
    exact h.untouched a b hab hb hm.1

/-- After the whole schedule every span is settled. -/
theorem Settled.run {n : Nat} {ground : Nat → Nat → κ} {done rest : List (Nat × Nat)}
    {table : Grid κ} (h : Settled g n ground done table) (hs : spans n = done ++ rest) :
    Settled g n ground (spans n) (rest.foldl (fillSpan g) table) := by
  induction rest generalizing done table with
  | nil => simpa [hs] using h
  | cons s rest ih =>
    obtain ⟨i, j⟩ := s
    have hij : (i, j) ∈ spans n := by rw [hs]; simp
    rw [mem_spans] at hij
    obtain ⟨hnew, hparts⟩ := parts_closed_before hs
    have hbound : ∀ s ∈ done, s.2 ≤ n :=
      fun s hm => (mem_spans.mp (hs ▸ List.mem_append_left _ hm)).2
    exact ih (h.step hij.1 hij.2 hnew hparts hbound) (by rw [hs, List.append_assoc]; rfl)

/-- The lexicon has an entry for the token. -/
def Known (g : Grammar) (token : String) : Prop := g.byRhsKey (quote token) ≠ []

theorem lexicon_of_known {position : Nat} {tokens : List String} (h : ∀ t ∈ tokens, Known g t) :
    lexicon g position tokens = .ok (tokens.map fun t => g.byRhsKey (quote t)) := by
  induction tokens generalizing position with
  | nil => rfl
  | cons t rest ih =>
    have hr : lexicon g (position + 1) rest = .ok (rest.map fun t => g.byRhsKey (quote t)) :=
      ih fun u hu => h u (List.mem_cons_of_mem _ hu)
    cases ht : g.byRhsKey (quote t) with
    | nil => exact absurd ht (h t List.mem_cons_self)
    | cons p ps => simp [lexicon, ht, hr, Except.map]

theorem known_of_lexicon {position : Nat} {tokens : List String} {entries : List (List Production)}
    (h : lexicon g position tokens = .ok entries) : ∀ t ∈ tokens, Known g t := by
  induction tokens generalizing position entries with
  | nil => simp
  | cons t rest ih =>
    cases ht : g.byRhsKey (quote t) with
    | nil => simp [lexicon, ht] at h
    | cons p ps =>
      cases hl : lexicon g (position + 1) rest with
      | error e => simp [lexicon, ht, hl, Except.map] at h
      | ok es =>
        intro u hu
        obtain rfl | hu := List.mem_cons.mp hu
        · simp [Known, ht]
        · exact ih hl u hu

/-- The lexicon fails at the first token that it does not know. -/
theorem lexicon_eq_error_iff {position : Nat} {tokens : List String} {e : UnknownToken} :
    lexicon g position tokens = .error e ↔ ∃ front back, tokens = front ++ e.token :: back ∧
      e.position = position + front.length ∧ (∀ t ∈ front, Known g t) ∧ ¬ Known g e.token := by
  induction tokens generalizing position with
  | nil => simp [lexicon]
  | cons t rest ih =>
    cases ht : g.byRhsKey (quote t) with
    | nil =>
      have hunknown : ¬ Known g t := fun hknown => hknown ht
      have hfail : lexicon g position (t :: rest) = .error ⟨t, position⟩ := by rw [lexicon, ht]
      rw [hfail]
      constructor
      · intro h
        obtain rfl := Except.error.inj h
        exact ⟨[], rest, rfl, rfl, by simp, hunknown⟩
      · rintro ⟨front, back, htokens, hposition, hfront, -⟩
        cases front with
        | nil =>
          obtain ⟨rfl, -⟩ := List.cons.inj htokens
          rw [List.length_nil, Nat.add_zero] at hposition
          rw [← hposition]
        | cons u front =>
          obtain ⟨rfl, -⟩ := List.cons.inj htokens
          exact absurd (hfront t List.mem_cons_self) hunknown
    | cons p ps =>
      have hknown : Known g t := by simp [Known, ht]
      have hrest : lexicon g position (t :: rest) = .error e ↔
          lexicon g (position + 1) rest = .error e := by
        simp only [lexicon, ht]
        cases lexicon g (position + 1) rest <;> simp [Except.map]
      rw [hrest, ih]
      constructor
      · rintro ⟨front, back, rfl, hposition, hfront, hunknown⟩
        refine ⟨t :: front, back, rfl, ?_, List.forall_mem_cons.mpr ⟨hknown, hfront⟩, hunknown⟩
        rw [hposition, List.length_cons]
        omega
      · rintro ⟨front, back, htokens, hposition, hfront, hunknown⟩
        cases front with
        | nil =>
          obtain ⟨rfl, -⟩ := List.cons.inj htokens
          exact absurd hknown hunknown
        | cons u front =>
          obtain ⟨rfl, rfl⟩ := List.cons.inj htokens
          refine ⟨front, back, rfl, ?_, (List.forall_mem_cons.mp hfront).2, hunknown⟩
          rw [hposition, List.length_cons]
          omega

@[simp] theorem size_seed (position : Nat) (entries : List (List Production)) (table : Grid κ) :
    (seed position entries table).size = table.size := by
  induction entries generalizing position table with
  | nil => rfl
  | cons ps rest ih => rw [seed, ih, Grid.size_modify]

theorem get_seed_other {position : Nat} {entries : List (List Production)} {table : Grid κ}
    {i j : Nat} (hn : position + entries.length ≤ table.size) (hj : j ≤ table.size)
    (h : ¬ (j = i + 1 ∧ position ≤ i ∧ i < position + entries.length)) :
    (seed position entries table).get i j = table.get i j := by
  induction entries generalizing position table with
  | nil => rfl
  | cons ps rest ih =>
    simp only [List.length_cons] at hn h
    rw [seed, ih (by simp; omega) (by simpa using hj) (by omega)]
    exact Grid.get_modify_other _ (by omega) hj (by omega) _

theorem get_seed_token {position : Nat} {entries : List (List Production)} {table : Grid κ}
    {k : Nat} (hn : position + entries.length ≤ table.size) (hk : k < entries.length) :
    (seed position entries table).get (position + k) (position + k + 1) = Cell.seed entries[k] := by
  induction entries generalizing position table k with
  | nil => simp at hk
  | cons ps rest ih =>
    simp only [List.length_cons] at hn hk
    rw [seed]
    cases k with
    | zero =>
      rw [get_seed_other (by simp; omega) (by simp; omega) (by omega)]
      exact Grid.get_modify_same _ (by omega) (by omega) _
    | succ k =>
      have he : position + (k + 1) = position + 1 + k := by omega
      rw [he, List.getElem_cons_succ]
      exact ih (by simp; omega) (by omega)

/-- What a cell holds before anything is combined: the lexicon's productions for one token. -/
def ground (g : Grammar) (tokens : List String) (i j : Nat) : κ :=
  if j = i + 1 then Cell.seed (g.byRhsKey (quote (tokens.getD i ""))) else default

theorem ground_token {tokens : List String} {i : Nat} {t : String} (ht : tokens[i]? = some t) :
    (ground g tokens i (i + 1) : κ) = Cell.seed (g.byRhsKey (quote t)) := by
  rw [ground, if_pos rfl, List.getD_eq_getElem?_getD, ht, Option.getD_some]

theorem ground_other {tokens : List String} {i j : Nat} (h : j ≠ i + 1) :
    (ground g tokens i j : κ) = default := if_neg h

theorem get_replicate (n : Nat) (cell : κ) {i j : Nat} (hi : i ≤ n) (hj : j ≤ n) :
    (Grid.replicate n cell).get i j = cell := by
  have h := Grid.slot_lt hi hj
  simp [Grid.get, Grid.replicate, h]

/-- The table of a sentence before the first action. -/
def seeded (κ : Type) [Cell κ] (g : Grammar) (tokens : List String) : Grid κ :=
  seed 0 (tokens.map fun t => g.byRhsKey (quote t)) (Grid.replicate tokens.length default)

@[simp] theorem size_seeded (tokens : List String) : (seeded κ g tokens).size = tokens.length := by
  rw [seeded, size_seed, Grid.replicate]

/-- A fill succeeds exactly when the lexicon knows every token. -/
theorem fill_eq_ok_iff {tokens : List String} {table : Grid κ} :
    fill κ g tokens = .ok table ↔ (∀ t ∈ tokens, Known g t) ∧
      table = (schedule tokens.length).foldl (FillStep.apply g) (seeded κ g tokens) := by
  constructor
  · intro h
    cases hl : lexicon g 0 tokens with
    | error e => simp [fill, hl] at h
    | ok entries =>
      have hk := known_of_lexicon hl
      obtain rfl : _ = entries := Except.ok.inj ((lexicon_of_known hk).symm.trans hl)
      simp only [fill, hl, Except.ok.injEq] at h
      exact ⟨hk, h.symm⟩
  · rintro ⟨hk, rfl⟩
    rw [fill, lexicon_of_known hk, seeded]

theorem exists_fill_iff {tokens : List String} :
    (∃ table, fill κ g tokens = .ok table) ↔ ∀ t ∈ tokens, Known g t := by
  simp only [fill_eq_ok_iff, exists_and_left, exists_eq, and_true]

/-- A fill fails as the lexicon does, whatever the cells hold. -/
theorem fill_eq_error_iff {tokens : List String} {e : UnknownToken} :
    fill κ g tokens = .error e ↔ lexicon g 0 tokens = .error e := by
  unfold fill
  cases lexicon g 0 tokens <;> simp

/-- Before the first action a cell holds what the lexicon gives. -/
theorem get_seeded {tokens : List String} {i j : Nat} (hi : i < j) (hj : j ≤ tokens.length) :
    (seeded κ g tokens).get i j = ground g tokens i j := by
  have hn : 0 + (tokens.map fun t => g.byRhsKey (quote t)).length ≤
      (Grid.replicate tokens.length (default : κ)).size := by simp [Grid.replicate]
  rw [seeded]
  by_cases h : j = i + 1
  · subst h
    have hs := get_seed_token hn (k := i) (by simp; omega)
    simp only [Nat.zero_add, List.getElem_map] at hs
    rw [hs, ground_token (List.getElem?_eq_getElem hj)]
  · rw [get_seed_other hn hj (by omega), ground_other h, get_replicate _ _ (by omega) hj]

/-- The cell equation: every cell of a filled table is settled over the cells for its parts. -/
theorem get_fill {tokens : List String} {table : Grid κ} (h : fill κ g tokens = .ok table)
    {i j : Nat} (hi : i < j) (hj : j ≤ tokens.length) :
    table.get i j = settle g table.get i j (ground g tokens i j) := by
  obtain ⟨-, rfl⟩ := fill_eq_ok_iff.mp h
  rw [foldl_schedule]
  have hstart : Settled g tokens.length (ground g tokens) [] (seeded κ g tokens) :=
    ⟨size_seeded tokens, by simp, by simp, fun i j hi hj _ => get_seeded hi hj⟩
  exact (hstart.run rfl).settled i j (mem_spans.mpr ⟨hi, hj⟩)

end SpanTable

end Constituency
