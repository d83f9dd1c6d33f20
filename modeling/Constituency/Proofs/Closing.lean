import Mathlib.Logic.Basic
import Mathlib.Logic.Relation
import Mathlib.Tactic.ByContra
import Constituency.UnitClosure

/-!
What closing a cell reaches. Every lane holds exactly the symbols that can be reached from its bases
by productions with one symbol, each of them once, and every reached symbol names an earlier item of
its lane from which one production leads to it. This holds for cycles of productions too.
-/
namespace Constituency

namespace Grammar

/-- One production with the lower symbol as its right-hand side leads to the upper one. -/
def UnitStep (g : Grammar) (low high : Symbol) : Prop := ∃ p ∈ g.byRhsKey low, p.lhs = high

/-- Zero or more such productions, one after the other. -/
def UnitReaches (g : Grammar) : Symbol → Symbol → Prop := Relation.ReflTransGen g.UnitStep

theorem UnitStep.mem_nonterminals {g : Grammar} {low high : Symbol} (h : g.UnitStep low high) :
    high ∈ g.nonterminals := by
  obtain ⟨p, hp, rfl⟩ := h
  exact Grammar.mem_nonterminals.mpr ⟨p, (mem_byRhsKey.mp hp).1, rfl⟩

end Grammar

namespace UnitClosure

variable {g : Grammar} {lanes : Nat}

theorem Fresh.getD_take (fresh : Fresh) (lane l : Nat) (s : Symbol) :
    (fresh.take lane s).getD l [] =
      if lane = l then (fresh.getD l []).erase s else fresh.getD l [] := by
  simp only [take, Array.getD_eq_getD_getElem?, Array.getElem?_modify]
  by_cases h : lane = l
  · subst h
    cases fresh[lane]? <;> simp
  · simp [h]

/-- The invariant of a closing, over all items so far, taken from the queue or waiting in it: no
lane holds a symbol twice, what is fresh in a lane is what it lacks, and every item beyond the bases
is explained by an earlier one. -/
structure Grown (g : Grammar) (lanes : Nat) (all : List Item) (fresh : Fresh) : Prop where
  lane_lt : ∀ item ∈ all, item.lane < lanes
  nodup_fresh : ∀ lane, (fresh.getD lane []).Nodup
  mem_fresh : ∀ lane < lanes, ∀ s, s ∈ fresh.getD lane [] ↔
    s ∈ g.nonterminals ∧ ∀ item ∈ all, item.lane = lane → item.symbol ≠ s
  once : all.Pairwise fun a b => ¬ (a.lane = b.lane ∧ a.symbol = b.symbol)
  linked : ∀ (m : Nat) (item : Item) (v : Nat), all[m]? = some item → item.via = some v →
    v < m ∧ ∃ source, all[v]? = some source ∧ source.lane = item.lane ∧
      g.UnitStep source.symbol item.symbol

/-- Each production over the item leads to an item of its lane. -/
def Expanded (g : Grammar) (all : List Item) (item : Item) : Prop :=
  ∀ s, g.UnitStep item.symbol s → ∃ reached ∈ all, reached.lane = item.lane ∧ reached.symbol = s

theorem Expanded.append {all : List Item} {item : Item} (h : Expanded g all item)
    (more : List Item) :
    Expanded g (all ++ more) item := by
  intro s hs
  obtain ⟨reached, hm, hr⟩ := h s hs
  exact ⟨reached, List.mem_append_left _ hm, hr⟩

/-- Taking a symbol for one more item leaves fresh what the lanes lack then. -/
theorem Grown.mem_fresh_push {all : List Item} {fresh : Fresh} (h : Grown g lanes all fresh)
    (s : Symbol) (own : Nat) (via : Option Nat) {lane : Nat} (hl : lane < lanes) (t : Symbol) :
    t ∈ (fresh.take own s).getD lane [] ↔
      t ∈ g.nonterminals ∧ ∀ item ∈ all ++ [⟨s, own, via⟩], item.lane = lane → item.symbol ≠ t := by
  have ht := h.mem_fresh lane hl t
  rw [Fresh.getD_take]
  split
  · next he =>
    subst he
    rw [(h.nodup_fresh own).mem_erase_iff, ht]
    simp only [List.mem_append, List.mem_singleton]
    constructor
    · rintro ⟨hne, hn, hall⟩
      refine ⟨hn, ?_⟩
      rintro item (hm | rfl) hi
      · exact hall item hm hi
      · exact Ne.symm hne
    · rintro ⟨hn, hall⟩
      exact ⟨Ne.symm (hall _ (.inr rfl) rfl), hn, fun item hm => hall item (.inl hm)⟩
  · next he =>
    rw [ht]
    simp only [List.mem_append, List.mem_singleton]
    constructor
    · rintro ⟨hn, hall⟩
      refine ⟨hn, ?_⟩
      rintro item (hm | rfl) hi
      · exact hall item hm hi
      · exact absurd hi he
    · rintro ⟨hn, hall⟩
      exact ⟨hn, fun item hm => hall item (.inl hm)⟩

/-- An item over an earlier one is explained by it, and the items before it are as they were. -/
theorem Grown.linked_push {all : List Item} {fresh : Fresh} (h : Grown g lanes all fresh)
    {idx : Nat} {source : Item} (hsource : all[idx]? = some source) {s : Symbol}
    (hs : g.UnitStep source.symbol s) {m v : Nat} {item : Item}
    (hm : (all ++ [⟨s, source.lane, some idx⟩])[m]? = some item) (hv : item.via = some v) :
    v < m ∧ ∃ low, (all ++ [⟨s, source.lane, some idx⟩])[v]? = some low ∧ low.lane = item.lane ∧
      g.UnitStep low.symbol item.symbol := by
  rw [List.getElem?_append] at hm
  split at hm
  · obtain ⟨hlt, low, hlow, hr⟩ := h.linked m item v hm hv
    exact ⟨hlt, low, by rw [List.getElem?_append_left (by omega)]; exact hlow, hr⟩
  · have hidx : idx < all.length := (List.getElem?_eq_some_iff.mp hsource).1
    obtain rfl := List.mem_singleton.mp (List.mem_of_getElem? hm)
    obtain rfl : idx = v := by simpa using hv
    refine ⟨by omega, source, ?_, rfl, hs⟩
    rw [List.getElem?_append_left hidx]
    exact hsource

/-- One more item, over the item at position `idx`. -/
theorem Grown.push {all : List Item} {fresh : Fresh} (h : Grown g lanes all fresh) {idx : Nat}
    {source : Item} (hsource : all[idx]? = some source) {s : Symbol}
    (hs : g.UnitStep source.symbol s) (hf : s ∈ fresh.getD source.lane []) :
    Grown g lanes (all ++ [⟨s, source.lane, some idx⟩]) (fresh.take source.lane s) := by
  have hlane : source.lane < lanes := h.lane_lt source (List.mem_of_getElem? hsource)
  have hnew := ((h.mem_fresh source.lane hlane s).mp hf).2
  refine ⟨?_, ?_, ?_, ?_, ?_⟩
  · intro item hm
    simp only [List.mem_append, List.mem_singleton] at hm
    obtain hm | rfl := hm
    · exact h.lane_lt item hm
    · exact hlane
  · intro lane
    rw [Fresh.getD_take]
    split
    · exact (h.nodup_fresh lane).erase s
    · exact h.nodup_fresh lane
  · intro lane hl t
    exact h.mem_fresh_push s source.lane (some idx) hl t
  · rw [List.pairwise_append]
    refine ⟨h.once, List.pairwise_singleton _ _, ?_⟩
    rintro a ha b hb ⟨hl, hsym⟩
    obtain rfl := List.mem_singleton.mp hb
    exact hnew a ha hl hsym
  · intro m item v hm hv
    exact h.linked_push hsource hs hm hv

/-- Expanding an item keeps the invariant and reaches what the item's productions lead to. -/
theorem Grown.expand {all : List Item} {fresh : Fresh} (h : Grown g lanes all fresh) {idx : Nat}
    {source : Item} (hsource : all[idx]? = some source) {ps : List Production}
    (hps : ∀ p ∈ ps, p ∈ g.byRhsKey source.symbol) :
    Grown g lanes (all ++ (expand source.lane idx ps fresh).1) (expand source.lane idx ps fresh).2 ∧
      ∀ p ∈ ps, ∃ reached ∈ all ++ (UnitClosure.expand source.lane idx ps fresh).1,
        reached.lane = source.lane ∧ reached.symbol = p.lhs := by
  induction ps generalizing all fresh with
  | nil => simpa [UnitClosure.expand] using h
  | cons p ps ih =>
    have hlane : source.lane < lanes := h.lane_lt source (List.mem_of_getElem? hsource)
    have hstep : g.UnitStep source.symbol p.lhs := ⟨p, hps p List.mem_cons_self, rfl⟩
    have hrest : ∀ q ∈ ps, q ∈ g.byRhsKey source.symbol :=
      fun q hq => hps q (List.mem_cons_of_mem _ hq)
    by_cases hf : fresh.has source.lane p.lhs = true
    · have hg := h.push hsource hstep (by simpa [Fresh.has] using hf)
      obtain ⟨hgrown, hreached⟩ := ih hg (by
        rw [List.getElem?_append_left (List.getElem?_eq_some_iff.mp hsource).1]
        exact hsource) hrest
      simp only [UnitClosure.expand, hf, if_true]
      rw [← List.append_cons] at hgrown hreached
      refine ⟨hgrown, ?_⟩
      intro q hq
      obtain rfl | hq := List.mem_cons.mp hq
      · exact ⟨⟨q.lhs, source.lane, some idx⟩, by simp, rfl, rfl⟩
      · exact hreached q hq
    · obtain ⟨hgrown, hreached⟩ := ih h hsource hrest
      simp only [UnitClosure.expand, hf]
      refine ⟨hgrown, ?_⟩
      intro q hq
      obtain rfl | hq := List.mem_cons.mp hq
      · -- the symbol is not fresh, so its lane has it already
        have hnot : q.lhs ∉ fresh.getD source.lane [] := by simpa [Fresh.has] using hf
        by_contra hno
        apply hnot
        rw [h.mem_fresh source.lane hlane]
        exact ⟨hstep.mem_nonterminals, fun item hm hl hsym =>
          hno ⟨item, List.mem_append_left _ hm, hl, hsym⟩⟩
      · exact hreached q hq

/-- An expansion leads over its item, by one of its productions. -/
theorem exists_of_mem_expand {lane idx : Nat} {ps : List Production} {fresh : Fresh} {item : Item}
    (h : item ∈ (expand lane idx ps fresh).1) : ∃ p ∈ ps, item = ⟨p.lhs, lane, some idx⟩ := by
  induction ps generalizing fresh with
  | nil => simp [expand] at h
  | cons p ps ih =>
    have hrest : ∀ {fresh}, item ∈ (expand lane idx ps fresh).1 →
        ∃ q ∈ p :: ps, item = ⟨q.lhs, lane, some idx⟩ :=
      fun hm => (ih hm).imp fun _ hq => hq.imp_left (List.mem_cons_of_mem p)
    simp only [expand] at h
    split at h
    · obtain rfl | h := List.mem_cons.mp h
      · exact ⟨p, List.mem_cons_self, rfl⟩
      · exact hrest h
    · exact hrest h

theorem via_of_mem_expand {lane idx : Nat} {ps : List Production} {fresh : Fresh} {item : Item}
    (h : item ∈ (expand lane idx ps fresh).1) : item.via = some idx := by
  obtain ⟨p, -, rfl⟩ := exists_of_mem_expand h
  rfl

/-- What the turn of each item keeps holds once the queue has run dry, when every item has had its
turn. -/
theorem run_induction {motive : Nat → List Item → Fresh → Prop}
    (turn : ∀ {idx : Nat} {all : List Item} {fresh : Fresh} {item : Item}, all[idx]? = some item →
      motive idx all fresh →
      motive (idx + 1) (all ++ (expand item.lane idx (g.byRhsKey item.symbol) fresh).1)
        (expand item.lane idx (g.byRhsKey item.symbol) fresh).2)
    {idx : Nat} {fresh : Fresh} {queue done : List Item} (hidx : idx = done.length)
    (h : motive idx (done ++ queue) fresh) :
    ∃ fresh',
      motive (done ++ run g idx fresh queue).length (done ++ run g idx fresh queue) fresh' := by
  fun_induction UnitClosure.run g idx fresh queue generalizing done with
  | case1 idx fresh =>
    rw [List.append_nil] at h ⊢
    exact ⟨fresh, hidx ▸ h⟩
  | case2 idx fresh item queue next =>
    rename_i ih
    have hitem : (done ++ item :: queue)[idx]? = some item := by simp [hidx]
    have hassoc : ∀ more, done ++ item :: more = done ++ [item] ++ more := by simp
    have hnext := turn hitem h
    rw [hassoc, List.append_assoc] at hnext
    rw [hassoc]
    exact ih (by simp [hidx]) hnext

/-- What holds of the bases and is kept by every turn holds of a closing. -/
theorem close_induction {motive : Nat → List Item → Fresh → Prop} {bases : List (Symbol × Nat)}
    (start : motive 0 (start g lanes bases).1 (start g lanes bases).2)
    (turn : ∀ {idx : Nat} {all : List Item} {fresh : Fresh} {item : Item}, all[idx]? = some item →
      motive idx all fresh →
      motive (idx + 1) (all ++ (expand item.lane idx (g.byRhsKey item.symbol) fresh).1)
        (expand item.lane idx (g.byRhsKey item.symbol) fresh).2) :
    ∃ fresh, motive (close g lanes bases).length (close g lanes bases) fresh :=
  @run_induction g motive turn 0 _ _ [] rfl start

/-- A closing lists its bases first and then items over earlier items. -/
theorem close_eq_append (g : Grammar) (lanes : Nat) (bases : List (Symbol × Nat)) :
    ∃ grown, close g lanes bases = bases.map (fun b => ⟨b.1, b.2, none⟩) ++ grown ∧
      ∀ item ∈ grown, item.via.isSome := by
  refine (close_induction
    (motive := fun _ all _ => ∃ grown, all = bases.map (fun b => ⟨b.1, b.2, none⟩) ++ grown ∧
      ∀ item ∈ grown, item.via.isSome) ⟨[], by simp [start], by simp⟩ ?_).elim fun _ h => h
  rintro idx _ fresh item - ⟨grown, rfl, hvia⟩
  refine ⟨_, List.append_assoc _ _ _, fun x hx => ?_⟩
  obtain hx | hx := List.mem_append.mp hx
  · exact hvia x hx
  · exact Option.isSome_of_eq_some (via_of_mem_expand hx)

/-- Taking the bases leaves each lane with what it lacks. -/
theorem mem_foldl_take {bases : List (Symbol × Nat)} {fresh : Fresh}
    (hn : ∀ lane, (fresh.getD lane []).Nodup) (lane : Nat) :
    ((bases.foldl (fun fresh b => Fresh.take fresh b.2 b.1) fresh).getD lane []).Nodup ∧
      ∀ s, s ∈ (bases.foldl (fun fresh b => Fresh.take fresh b.2 b.1) fresh).getD lane [] ↔
        s ∈ fresh.getD lane [] ∧ (s, lane) ∉ bases := by
  induction bases generalizing fresh with
  | nil => simpa using hn lane
  | cons b bases ih =>
    have hn' : ∀ l, ((fresh.take b.2 b.1).getD l []).Nodup := by
      intro l
      rw [Fresh.getD_take]
      split
      · exact (hn l).erase _
      · exact hn l
    obtain ⟨hnodup, hmem⟩ := ih hn'
    refine ⟨hnodup, fun s => ?_⟩
    rw [List.foldl_cons, hmem, Fresh.getD_take, List.mem_cons, not_or, Prod.ext_iff]
    split
    · next he =>
      rw [(hn lane).mem_erase_iff]
      simp only [he, and_true, ne_eq]
      exact ⟨fun ⟨⟨h₁, h₂⟩, h₃⟩ => ⟨h₂, h₁, h₃⟩, fun ⟨h₁, h₂, h₃⟩ => ⟨⟨h₂, h₁⟩, h₃⟩⟩
    · next he => simp [Ne.symm he]

theorem getD_replicate (lanes lane : Nat) (nonterminals : List Symbol) :
    (Array.replicate lanes nonterminals).getD lane [] =
      if lane < lanes then nonterminals else [] := by
  by_cases h : lane < lanes <;> simp [Array.getD_eq_getD_getElem?, h]

/-- The bases alone satisfy the invariant. -/
theorem Grown.start {bases : List (Symbol × Nat)} (hb : bases.Nodup)
    (hl : ∀ b ∈ bases, b.2 < lanes) :
    Grown g lanes (start g lanes bases).1 (start g lanes bases).2 := by
  have hn : ∀ lane, ((Array.replicate lanes g.nonterminals).getD lane []).Nodup := by
    intro lane
    rw [getD_replicate]
    split
    · exact g.nodup_nonterminals
    · exact List.nodup_nil
  refine ⟨?_, fun lane => (mem_foldl_take hn lane).1, ?_, ?_, ?_⟩
  · intro item hm
    obtain ⟨b, hb, rfl⟩ := List.mem_map.mp hm
    exact hl b hb
  · intro lane hlane s
    rw [UnitClosure.start, (mem_foldl_take hn lane).2, getD_replicate, if_pos hlane]
    constructor
    · rintro ⟨hs, hno⟩
      refine ⟨hs, ?_⟩
      rintro item hm rfl rfl
      obtain ⟨b, hb, rfl⟩ := List.mem_map.mp hm
      exact hno hb
    · rintro ⟨hs, hall⟩
      refine ⟨hs, fun hm => ?_⟩
      exact hall ⟨s, lane, none⟩ (List.mem_map.mpr ⟨(s, lane), hm, rfl⟩) rfl rfl
  · rw [UnitClosure.start, List.pairwise_map]
    exact hb.imp fun hne he => hne (Prod.ext he.2 he.1)
  · intro m item v hm hv
    obtain ⟨b, -, rfl⟩ := List.mem_map.mp (List.mem_of_getElem? hm)
    cases hv

/-- A closing keeps the invariant and expands all its items. -/
theorem close_grown {bases : List (Symbol × Nat)} (hb : bases.Nodup)
    (hl : ∀ b ∈ bases, b.2 < lanes) :
    ∃ fresh, Grown g lanes (close g lanes bases) fresh ∧
      ∀ item ∈ close g lanes bases, Expanded g (close g lanes bases) item := by
  refine Exists.elim (close_induction (g := g) (motive := fun idx all fresh =>
    Grown g lanes all fresh ∧ ∀ m item, m < idx → all[m]? = some item → Expanded g all item)
    ⟨Grown.start hb hl, by simp⟩ ?turn) ?closed
  case turn =>
    intro idx all fresh item hitem ⟨hgrown, hexpanded⟩
    obtain ⟨hgrown', hreached⟩ := hgrown.expand hitem (fun (p : Production) hp => hp)
    refine ⟨hgrown', fun m x hm hx => ?_⟩
    have hlt := (List.getElem?_eq_some_iff.mp hitem).1
    rw [List.getElem?_append_left (by omega)] at hx
    obtain hm | rfl := Nat.lt_succ_iff_lt_or_eq.mp hm
    · exact (hexpanded m x hm hx).append _
    · obtain rfl := Option.some.inj (hx.symm.trans hitem)
      rintro s ⟨p, hp, rfl⟩
      exact hreached p hp
  case closed =>
    intro fresh ⟨hgrown, hexpanded⟩
    refine ⟨fresh, hgrown, fun item hitem => ?_⟩
    obtain ⟨m, hm⟩ := List.mem_iff_getElem?.mp hitem
    exact hexpanded m item (List.getElem?_eq_some_iff.mp hm).1 hm

/-- An item without an earlier one below it is a base. -/
theorem mem_bases_of_via_none {bases : List (Symbol × Nat)} {item : Item}
    (hm : item ∈ close g lanes bases) (hv : item.via = none) :
    (item.symbol, item.lane) ∈ bases := by
  obtain ⟨grown, hclose, hvia⟩ := close_eq_append g lanes bases
  rw [hclose, List.mem_append] at hm
  obtain hm | hm := hm
  · obtain ⟨b, hb, rfl⟩ := List.mem_map.mp hm
    exact hb
  · have := hvia item hm
    simp [hv] at this

/-- A lane of a closing holds what its bases reach. -/
theorem mem_close_iff {bases : List (Symbol × Nat)} (hb : bases.Nodup)
    (hl : ∀ b ∈ bases, b.2 < lanes) {lane : Nat} {s : Symbol} :
    (∃ item ∈ close g lanes bases, item.lane = lane ∧ item.symbol = s) ↔
      ∃ b, (b, lane) ∈ bases ∧ g.UnitReaches b s := by
  obtain ⟨fresh, hg, he⟩ := close_grown (g := g) hb hl
  constructor
  · rintro ⟨item, hitem, rfl, rfl⟩
    obtain ⟨m, hm⟩ := List.mem_iff_getElem?.mp hitem
    clear hitem
    -- along the positions: an item is over an earlier one of its lane
    induction m using Nat.strongRecOn generalizing item with
    | ind m ih =>
      cases hv : item.via with
      | none => exact ⟨_, mem_bases_of_via_none (List.mem_of_getElem? hm) hv, .refl⟩
      | some v =>
        obtain ⟨hlt, source, hsource, hsame, hstep⟩ := hg.linked m item v hm hv
        obtain ⟨b, hbase, hreach⟩ := ih v hlt source hsource
        exact ⟨b, hsame ▸ hbase, hreach.tail hstep⟩
  · rintro ⟨b, hbase, hreach⟩
    induction hreach with
    | refl =>
      obtain ⟨grown, hclose, -⟩ := close_eq_append g lanes bases
      refine ⟨⟨b, lane, none⟩, ?_, rfl, rfl⟩
      rw [hclose]
      exact List.mem_append_left _ (List.mem_map.mpr ⟨(b, lane), hbase, rfl⟩)
    | tail _ hstep ih =>
      obtain ⟨item, hm, rfl, rfl⟩ := ih
      exact he item hm _ hstep

end UnitClosure

end Constituency
