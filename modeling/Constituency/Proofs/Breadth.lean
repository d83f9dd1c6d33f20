import Mathlib.Data.List.ProdSigma
import Mathlib.Data.List.Perm.Subperm
import Constituency.Proofs.Closing

/-!
The order in which a closing reaches its items. Items have their turn in the order in which they
were reached, so nothing is over a later item than what comes behind it, and a symbol is reached in
the turn of the first item that leads to it. For this reason no shorter way up from a base is ever
missed.
-/
namespace Constituency

/-- So many productions with one symbol on the right, one above the other, lead up from a symbol. -/
inductive Grammar.UnitPath (g : Grammar) (low : Symbol) : Nat → Symbol → Prop
  | nil : UnitPath g low 0 low
  | step {n : Nat} {mid high : Symbol} (h : UnitPath g low n mid)
      (hp : ⟨high, [mid]⟩ ∈ g.productions) :
      UnitPath g low (n + 1) high

namespace UnitClosure

variable {g : Grammar} {lanes turn : Nat} {all : List Item} {fresh : Fresh}

/-- The items are in the order of the items they are over, bases first, and every item before `turn`
has had its turn: what its productions lead to is reached, and not later than by itself. -/
structure Breadth (g : Grammar) (turn : Nat) (all : List Item) : Prop where
  sorted : all.Pairwise fun a b => ∀ v ∈ a.via, ∃ w ∈ b.via, v ≤ w
  via_lt : ∀ item ∈ all, ∀ v ∈ item.via, v < turn
  prompt : ∀ (m : Nat) (item : Item), m < turn → all[m]? = some item →
    ∀ s, g.UnitStep item.symbol s →
    ∃ reached ∈ all, reached.lane = item.lane ∧ reached.symbol = s ∧ ∀ v ∈ reached.via, v ≤ m

/-- One more item has its turn. -/
theorem Breadth.expand (h : Breadth g turn all) (hgrown : Grown g lanes all fresh) {item : Item}
    (hitem : all[turn]? = some item) :
    Breadth g (turn + 1) (all ++ (expand item.lane turn (g.byRhsKey item.symbol) fresh).1) := by
  have hlt : turn < all.length := (List.getElem?_eq_some_iff.mp hitem).1
  obtain ⟨-, hreached⟩ := hgrown.expand hitem (fun (p : Production) hp => hp)
  generalize hnew :
    (UnitClosure.expand item.lane turn (g.byRhsKey item.symbol) fresh).1 = new at hreached ⊢
  have hvia : ∀ x ∈ new, x.via = some turn := fun x hx => via_of_mem_expand (hnew ▸ hx)
  refine ⟨?_, ?_, ?_⟩
  · rw [List.pairwise_append]
    refine ⟨h.sorted, List.pairwise_of_forall_mem_list fun a ha b hb v hv => ?_,
      fun a ha b hb v hv => ?_⟩
    · rw [hvia a ha] at hv
      exact ⟨v, by rw [hvia b hb]; exact hv, Nat.le_refl v⟩
    · exact ⟨turn, hvia b hb, Nat.le_of_lt (h.via_lt a ha v hv)⟩
  · intro x hx v hv
    obtain hx | hx := List.mem_append.mp hx
    · exact Nat.lt_succ_of_lt (h.via_lt x hx v hv)
    · rw [hvia x hx] at hv
      obtain rfl := Option.some.inj hv
      exact Nat.lt_succ_self turn
  · intro m x hm hx s hs
    rw [List.getElem?_append_left (by omega)] at hx
    obtain hm | rfl := Nat.lt_succ_iff_lt_or_eq.mp hm
    · obtain ⟨reached, hmem, hr⟩ := h.prompt m x hm hx s hs
      exact ⟨reached, List.mem_append_left _ hmem, hr⟩
    · obtain rfl := Option.some.inj (hx.symm.trans hitem)
      obtain ⟨p, hp, rfl⟩ := hs
      obtain ⟨reached, hmem, hlane, hsymbol⟩ := hreached p hp
      refine ⟨reached, hmem, hlane, hsymbol, fun v hv => ?_⟩
      obtain hmem | hmem := List.mem_append.mp hmem
      · exact Nat.le_of_lt (h.via_lt reached hmem v hv)
      · rw [hvia reached hmem] at hv
        exact Nat.le_of_eq (Option.some.inj hv).symm

theorem Breadth.start (bases : List (Symbol × Nat)) : Breadth g 0 (start g lanes bases).1 := by
  have hvia : ∀ x ∈ (UnitClosure.start g lanes bases).1, x.via = none := by
    intro x hx
    obtain ⟨b, -, rfl⟩ := List.mem_map.mp hx
    rfl
  refine ⟨List.pairwise_of_forall_mem_list fun a ha b _ v hv => ?_, fun a ha v hv => ?_, by simp⟩
  · rw [hvia a ha] at hv
    cases hv
  · rw [hvia a ha] at hv
    cases hv

/-- In a closing every item has had its turn. -/
theorem breadth_close {bases : List (Symbol × Nat)} (hb : bases.Nodup)
    (hl : ∀ b ∈ bases, b.2 < lanes) :
    Breadth g (close g lanes bases).length (close g lanes bases) := by
  refine Exists.elim (close_induction (g := g) (motive := fun turn all fresh =>
    Breadth g turn all ∧ Grown g lanes all fresh) ⟨.start bases, .start hb hl⟩ ?_) fun _ h => h.1
  intro turn all fresh item hitem ⟨hbreadth, hgrown⟩
  exact ⟨hbreadth.expand hgrown hitem, (hgrown.expand hitem fun _ hp => hp).1⟩

/-- Nothing is over a later item than what comes behind it. -/
theorem Breadth.via_mono (h : Breadth g turn all) {m n : Nat} {a b : Item} (hmn : m ≤ n)
    (ha : all[m]? = some a) (hb : all[n]? = some b) {v : Nat} (hv : a.via = some v) :
    ∃ w, b.via = some w ∧ v ≤ w := by
  obtain hlt | rfl := Nat.lt_or_eq_of_le hmn
  · obtain ⟨hm, rfl⟩ := List.getElem?_eq_some_iff.mp ha
    obtain ⟨hn, rfl⟩ := List.getElem?_eq_some_iff.mp hb
    exact List.pairwise_iff_getElem.mp h.sorted m n hm hn hlt v hv
  · obtain rfl := Option.some.inj (ha.symm.trans hb)
    exact ⟨v, hv, Nat.le_refl v⟩

/-- The item at a position is so many productions above the base of its lane. -/
inductive Depth (all : List Item) : Nat → Nat → Prop
  | base {m : Nat} {item : Item} (hm : all[m]? = some item) (hv : item.via = none) : Depth all m 0
  | step {m v n : Nat} {item : Item} (hm : all[m]? = some item) (hv : item.via = some v)
      (h : Depth all v n) : Depth all m (n + 1)

theorem Grown.exists_depth (h : Grown g lanes all fresh) {m : Nat} {item : Item}
    (hm : all[m]? = some item) : ∃ n, Depth all m n := by
  induction m using Nat.strongRecOn generalizing item with
  | ind m ih =>
    cases hv : item.via with
    | none => exact ⟨0, .base hm hv⟩
    | some v =>
      obtain ⟨hlt, source, hsource, -⟩ := h.linked m item v hm hv
      obtain ⟨n, hn⟩ := ih v hlt hsource
      exact ⟨n + 1, .step hm hv hn⟩

/-- What comes later is not less deep. -/
theorem Breadth.depth_mono (h : Breadth g turn all) {m n d d' : Nat} (hmn : m ≤ n)
    (hd : Depth all m d) (hd' : Depth all n d') : d ≤ d' := by
  induction hd' generalizing m d with
  | base hn hw =>
    cases hd with
    | base => exact Nat.le_refl 0
    | step hm hv _ =>
      obtain ⟨w, hw', -⟩ := h.via_mono hmn hm hn hv
      cases hw.symm.trans hw'
  | step hn hw _ ih =>
    cases hd with
    | base => exact Nat.zero_le _
    | step hm hv hd =>
      obtain ⟨w, hw', hle⟩ := h.via_mono hmn hm hn hv
      obtain rfl := Option.some.inj (hw.symm.trans hw')
      exact Nat.succ_le_succ (ih hle hd)

theorem Breadth.depth_unique (h : Breadth g turn all) {m d d' : Nat} (hd : Depth all m d)
    (hd' : Depth all m d') : d = d' :=
  Nat.le_antisymm (h.depth_mono (Nat.le_refl m) hd hd') (h.depth_mono (Nat.le_refl m) hd' hd)

section Bases

variable {bases : List (Symbol × Nat)} (hb : bases.Nodup) (hl : ∀ b ∈ bases, b.2 < lanes)

include hb hl

/-- However many productions lead up from a base, its lane has an item for the symbol that is not
deeper. -/
theorem exists_depth_le {low s : Symbol} {lane n : Nat} (hbase : (low, lane) ∈ bases)
    (hpath : g.UnitPath low n s) :
    ∃ m item d, (close g lanes bases)[m]? = some item ∧ item.lane = lane ∧
      item.symbol = s ∧ Depth (close g lanes bases) m d ∧ d ≤ n := by
  have hbreadth := breadth_close (g := g) hb hl
  obtain ⟨_, hgrown, -⟩ := close_grown (g := g) hb hl
  induction hpath with
  | nil =>
    obtain ⟨grown, hclose, -⟩ := close_eq_append g lanes bases
    have hmem : ⟨low, lane, none⟩ ∈ close g lanes bases := by
      rw [hclose]
      exact List.mem_append_left _ (List.mem_map.mpr ⟨_, hbase, rfl⟩)
    obtain ⟨m, hm⟩ := List.mem_iff_getElem?.mp hmem
    exact ⟨m, _, 0, hm, rfl, rfl, .base hm rfl, Nat.le_refl 0⟩
  | @step n mid high _ hp ih =>
    obtain ⟨m, item, d, hm, rfl, rfl, hd, hle⟩ := ih
    have hstep : g.UnitStep item.symbol high := ⟨_, Grammar.mem_byRhsKey.mpr ⟨hp, rfl⟩, rfl⟩
    obtain ⟨reached, hmem, hlane, hsymbol, hvia⟩ :=
      hbreadth.prompt m item (List.getElem?_eq_some_iff.mp hm).1 hm high hstep
    obtain ⟨q, hq⟩ := List.mem_iff_getElem?.mp hmem
    obtain ⟨k, hk⟩ := hgrown.exists_depth hq
    refine ⟨q, reached, k, hq, hlane, hsymbol, hk, ?_⟩
    cases hk with
    | base => exact Nat.zero_le _
    | step hq' hv hk =>
      obtain rfl := Option.some.inj (hq.symm.trans hq')
      have hmono := hbreadth.depth_mono (hvia _ hv) hk hd
      omega

/-- An item is as many productions above the base of its lane as it is deep, where look-ups find
only productions with this one symbol. -/
theorem unitPath_of_depth
    (hunit : ∀ low high, low ∈ g.nonterminals → g.UnitStep low high → ⟨high, [low]⟩ ∈ g.productions)
    (hsymbols : ∀ b ∈ bases, b.1 ∈ g.nonterminals) {m d : Nat} {item : Item}
    (hd : Depth (close g lanes bases) m d) (hm : (close g lanes bases)[m]? = some item) :
    item.symbol ∈ g.nonterminals ∧ ∃ low, (low, item.lane) ∈ bases ∧
      g.UnitPath low d item.symbol := by
  obtain ⟨_, hgrown, -⟩ := close_grown (g := g) hb hl
  induction hd generalizing item with
  | base hm' hv =>
    obtain rfl := Option.some.inj (hm.symm.trans hm')
    have hbase := mem_bases_of_via_none (List.mem_of_getElem? hm) hv
    exact ⟨hsymbols _ hbase, _, hbase, .nil⟩
  | step hm' hv _ ih =>
    obtain rfl := Option.some.inj (hm.symm.trans hm')
    obtain ⟨-, source, hsource, hlane, hstep⟩ := hgrown.linked _ _ _ hm hv
    obtain ⟨hsymbol, low, hbase, hpath⟩ := ih hsource
    exact ⟨hstep.mem_nonterminals, low, hlane ▸ hbase, hpath.step (hunit _ _ hsymbol hstep)⟩

/-- A closing has no more items than lanes and nonterminals allow. -/
theorem length_close_le (hsymbols : ∀ b ∈ bases, b.1 ∈ g.nonterminals) :
    (close g lanes bases).length ≤ lanes * g.nonterminals.length := by
  obtain ⟨_, hgrown, -⟩ := close_grown (g := g) hb hl
  have hnodup : ((close g lanes bases).map fun x => (x.lane, x.symbol)).Nodup := by
    rw [List.Nodup, List.pairwise_map]
    exact hgrown.once.imp fun hne he => hne (Prod.mk.inj he)
  have hsubset : ((close g lanes bases).map fun x => (x.lane, x.symbol)) ⊆
      List.range lanes ×ˢ g.nonterminals := by
    intro pair hpair
    obtain ⟨item, hitem, rfl⟩ := List.mem_map.mp hpair
    rw [List.mem_product, List.mem_range]
    refine ⟨hgrown.lane_lt item hitem, ?_⟩
    obtain ⟨m, hm⟩ := List.mem_iff_getElem?.mp hitem
    cases hv : item.via with
    | none => exact hsymbols _ (mem_bases_of_via_none hitem hv)
    | some v =>
      obtain ⟨-, _, -, -, hstep⟩ := hgrown.linked m item v hm hv
      exact hstep.mem_nonterminals
  have hle := (List.subperm_of_subset hnodup hsubset).length_le
  rwa [List.length_map, List.length_product, List.length_range] at hle

end Bases

end UnitClosure

end Constituency
