import Constituency.Proofs.Division
import Constituency.Proofs.Rewriting

/-!
What introduced symbols stand for. A known symbol expands to the symbols of the source that its
parts stand for, every other symbol to itself. Expansion turns the main production of a source
production into that production, and leaves the productions of introduced symbols without effect, so
both grammars derive the same strings from the symbols of the source.
-/
namespace Constituency.Conversion

/-- The parts of a known symbol, or the symbol alone. -/
def plain (n : Naming) (s : Symbol) : List Symbol := (n.lookup s).getD [s]

/-- The source symbols that a symbol stands for. -/
def expand (n : Naming) (s : Symbol) : List Symbol := (plain n s).flatMap (plain n)

variable {g h : Grammar} {n : Naming}

theorem plain_of_lookup {s : Symbol} {parts : List Symbol} (hs : n.lookup s = some parts) :
    plain n s = parts := by
  rw [plain, hs, Option.getD_some]

theorem expand_of_unknown {s : Symbol} (hs : n.lookup s = none) : expand n s = [s] := by
  have hplain : plain n s = [s] := by rw [plain, hs, Option.getD_none]
  rw [expand, hplain, List.flatMap_singleton, hplain]

theorem flatMap_singleton {α : Type} {f : α → List α} {xs : List α} (h : ∀ x ∈ xs, f x = [x]) :
    xs.flatMap f = xs := by
  induction xs with
  | nil => rfl
  | cons x xs ih =>
    rw [List.flatMap_cons, h x List.mem_cons_self, ih fun y hy => h y (List.mem_cons_of_mem _ hy),
      List.singleton_append]

theorem isSymbol_of_isNonterminal {s : Symbol} (hs : g.isNonterminal s = true) :
    g.isSymbol s = true :=
  Grammar.isSymbol_iff.mpr (.inl hs)

theorem isSymbol_of_occursRight {s : Symbol} (hs : g.occursRight s = true) : g.isSymbol s = true :=
  Grammar.isSymbol_iff.mpr (.inr hs)

theorem isSymbol_of_isTerminal {t : Symbol} (ht : g.isTerminal t = true) : g.isSymbol t = true :=
  isSymbol_of_occursRight (Grammar.isTerminal_iff.mp ht).2

section Sound

variable (hn : Sound g n)

include hn

theorem Sound.lookup_of_isSymbol {s : Symbol} (hs : g.isSymbol s = true) : n.lookup s = none := by
  cases hl : n.lookup s with
  | none => rfl
  | some parts =>
    rw [hn.consistent.isSymbol hl] at hs
    cases hs

theorem Sound.plain_of_isSymbol {s : Symbol} (hs : g.isSymbol s = true) : plain n s = [s] := by
  rw [plain, hn.lookup_of_isSymbol hs, Option.getD_none]

theorem Sound.expand_of_isSymbol {s : Symbol} (hs : g.isSymbol s = true) : expand n s = [s] :=
  expand_of_unknown (hn.lookup_of_isSymbol hs)

/-- One step is enough for a symbol that may stand beside others. -/
theorem Sound.expand_of_upright {s : Symbol} (hs : Upright g n s) : expand n s = plain n s := by
  obtain ⟨hs, -⟩ | ⟨t, ht, hl⟩ := hs
  · have hsym := isSymbol_of_occursRight hs
    rw [hn.expand_of_isSymbol hsym, hn.plain_of_isSymbol hsym]
  · rw [expand, plain_of_lookup hl, List.flatMap_singleton,
      hn.plain_of_isSymbol (isSymbol_of_isTerminal ht)]

theorem Sound.expand_of_formed {parts : List Symbol} (hf : Formed g n parts) :
    ∀ s ∈ parts, expand n s = plain n s := by
  intro s hs
  cases hf with
  | @terminal t ht =>
    obtain rfl := List.mem_singleton.mp hs
    have hsym := isSymbol_of_isTerminal ht
    rw [hn.expand_of_isSymbol hsym, hn.plain_of_isSymbol hsym]
  | several hlength hall => exact hn.expand_of_upright (hall s hs)

/-- A known symbol expands to symbols of the source. -/
theorem Sound.isSymbol_of_mem_expand {s t : Symbol} {parts : List Symbol}
    (hl : n.lookup s = some parts) (ht : t ∈ expand n s) : g.isSymbol t = true := by
  have hupright : ∀ u, Upright g n u → t ∈ plain n u → g.isSymbol t = true := by
    rintro u (⟨hu, -⟩ | ⟨v, hv, hlu⟩) hm
    · rw [hn.plain_of_isSymbol (isSymbol_of_occursRight hu), List.mem_singleton] at hm
      exact hm ▸ isSymbol_of_occursRight hu
    · rw [plain_of_lookup hlu, List.mem_singleton] at hm
      exact hm ▸ isSymbol_of_isTerminal hv
  rw [expand, plain_of_lookup hl] at ht
  obtain ⟨u, hu, hm⟩ := List.mem_flatMap.mp ht
  cases hn.formed s parts hl with
  | @terminal v hv =>
    obtain rfl := List.mem_singleton.mp hu
    rw [hn.plain_of_isSymbol (isSymbol_of_isTerminal hv), List.mem_singleton] at hm
    exact hm ▸ isSymbol_of_isTerminal hv
  | several _ hall => exact hupright u (hall u hu) hm

/-- What stands for the symbols of a right-hand side expands to them. -/
theorem Sound.flatMap_of_stands {rhs parts : List Symbol}
    (hs : List.Forall₂ (Stands g n) rhs parts) :
    parts.flatMap (plain n) = rhs := by
  induction hs with
  | nil => rfl
  | @cons s u rest parts hsu _ ih =>
    rw [List.flatMap_cons, ih]
    obtain ⟨-, hl⟩ | ⟨hnon, rfl⟩ := hsu
    · rw [plain_of_lookup hl, List.singleton_append]
    · rw [hn.plain_of_isSymbol (isSymbol_of_isNonterminal hnon), List.singleton_append]

omit hn in
/-- A right-hand side expands to what its parts stand for. -/
theorem Splits.flatMap_expand {parts rhs : List Symbol} (hs : Splits n parts rhs)
    (hparts : ∀ s ∈ parts, expand n s = plain n s) :
    rhs.flatMap (expand n) = parts.flatMap (plain n) := by
  cases hs with
  | short _ => exact List.flatMap_congr hparts
  | @long parts compound last hlength hc =>
    have hlast : expand n last = plain n last := hparts last (by simp)
    rw [List.flatMap_cons, List.flatMap_singleton, hlast, List.flatMap_append,
      List.flatMap_singleton, expand, plain_of_lookup hc]

/-- The main production of a production expands to it. -/
theorem Main.flatMap_expand {p q : Production} (hp : p ∈ g.productions) (hm : Main g n p q) :
    q.rhs.flatMap (expand n) = p.rhs := by
  obtain ⟨-, ⟨-, hrhs⟩ | ⟨-, parts, hstands, hsplits⟩⟩ := hm
  · rw [hrhs]
    exact flatMap_singleton fun s hs =>
      hn.expand_of_isSymbol (isSymbol_of_occursRight (occursRight_of_mem hp hs))
  · rw [hsplits.flatMap_expand, hn.flatMap_of_stands hstands]
    intro u hu
    obtain ⟨s, hs, hsu⟩ := exists_mem_left hstands hu
    exact hn.expand_of_upright (hsu.upright (occursRight_of_mem hp hs))

/-- The production of an introduced symbol expands to what the symbol expands to. -/
theorem Sound.flatMap_of_splits {s : Symbol} {parts rhs : List Symbol}
    (hl : n.lookup s = some parts) (hs : Splits n parts rhs) :
    rhs.flatMap (expand n) = expand n s := by
  rw [hs.flatMap_expand (hn.expand_of_formed (hn.formed s parts hl)), expand, plain_of_lookup hl]

end Sound

open Relation Grammar

theorem reaches_flatMap {f : Symbol → List Symbol} {a : List Symbol}
    (hf : ∀ s ∈ a, h.Reaches [s] (f s)) :
    h.Reaches a (a.flatMap f) := by
  induction a with
  | nil => exact ReflTransGen.refl
  | cons s a ih =>
    exact Reaches.append (hf s List.mem_cons_self) (ih fun t ht => hf t (List.mem_cons_of_mem _ ht))

section Explains

variable (he : Explains g n h)

include he

/-- A symbol that may stand beside others reaches what it stands for. -/
theorem Explains.reaches_of_upright {s : Symbol} (hs : Upright g n s) :
    h.Reaches [s] (expand n s) := by
  rw [he.sound.expand_of_upright hs]
  obtain ⟨hs, -⟩ | ⟨t, ht, hl⟩ := hs
  · rw [he.sound.plain_of_isSymbol (isSymbol_of_occursRight hs)]
    exact ReflTransGen.refl
  · obtain ⟨rhs, hsplits, hp⟩ := he.definition s [t] hl
    obtain rfl : rhs = [t] := hsplits.eq_of_length_le (by simp)
    rw [plain_of_lookup hl]
    exact ReflTransGen.single (rewrites_production hp)

theorem Explains.reaches_of_formed {parts : List Symbol} (hf : Formed g n parts) :
    ∀ s ∈ parts, h.Reaches [s] (expand n s) := by
  intro s hs
  cases hf with
  | @terminal t ht =>
    obtain rfl := List.mem_singleton.mp hs
    rw [he.sound.expand_of_isSymbol (isSymbol_of_isTerminal ht)]
    exact ReflTransGen.refl
  | several _ hall => exact he.reaches_of_upright (hall s hs)

/-- Every symbol reaches what it stands for. -/
theorem Explains.reaches_expand (s : Symbol) : h.Reaches [s] (expand n s) := by
  cases hl : n.lookup s with
  | none =>
    rw [expand_of_unknown hl]
    exact ReflTransGen.refl
  | some parts =>
    -- the compound in a production stands for fewer parts than the symbol that it defines
    induction hlength : parts.length using Nat.strongRecOn generalizing s parts with
    | ind m ih =>
      obtain ⟨rhs, hsplits, hp⟩ := he.definition s parts hl
      have hall := he.reaches_of_formed (he.sound.formed s parts hl)
      rw [← he.sound.flatMap_of_splits hl hsplits]
      refine ReflTransGen.head (rewrites_production hp) (reaches_flatMap fun u hu => ?_)
      cases hsplits with
      | short _ => exact hall u hu
      | @long front compound last _ hc =>
        obtain rfl | hu := List.mem_cons.mp hu
        · rw [List.length_append, List.length_singleton] at hlength
          exact ih front.length (by omega) u front hc rfl
        · obtain rfl := List.mem_singleton.mp hu
          exact hall u (by simp)

/-- A step of the source is simulated by the main production and the definitions below it. -/
theorem Explains.derives_of_rewrites {a b : List Symbol} (hr : g.Rewrites a b) : h.Derives a b := by
  obtain ⟨p, hp, u, v, rfl, rfl⟩ := hr
  obtain ⟨q, hq, hm⟩ := he.main p hp
  have hbelow : h.Reaches q.rhs p.rhs := by
    rw [← hm.flatMap_expand he.sound hp]
    exact reaches_flatMap fun s _ => he.reaches_expand s
  have hstep : h.Derives [p.lhs] p.rhs := by
    rw [← hm.1]
    exact TransGen.head' (rewrites_production hq) hbelow
  simpa using hstep.context u v

/-- A step of the converted grammar expands to a step of the source, or to none. -/
theorem Explains.reaches_of_rewrites {a b : List Symbol} (hr : h.Rewrites a b) :
    g.Reaches (a.flatMap (expand n)) (b.flatMap (expand n)) := by
  obtain ⟨q, hq, u, v, rfl, rfl⟩ := hr
  have hstep : g.Reaches (expand n q.lhs) (q.rhs.flatMap (expand n)) := by
    cases hs : g.isSymbol q.lhs with
    | true =>
      obtain ⟨p, hp, hm⟩ := he.source q hq hs
      rw [he.sound.expand_of_isSymbol hs, hm.1, hm.flatMap_expand he.sound hp]
      exact ReflTransGen.single (rewrites_production hp)
    | false =>
      obtain ⟨parts, hl, hsplits⟩ := he.introduced q hq hs
      rw [he.sound.flatMap_of_splits hl hsplits]
      exact ReflTransGen.refl
  simpa [List.flatMap_append] using hstep.context (u.flatMap (expand n)) (v.flatMap (expand n))

/-- A string reaches in the converted grammar what its expansion reaches in the source, as far as
symbols of the source are reached. -/
theorem Explains.reaches_iff {a u : List Symbol} (hu : ∀ s ∈ u, g.isSymbol s = true) :
    h.Reaches a u ↔ g.Reaches (a.flatMap (expand n)) u := by
  constructor
  · intro hr
    have hexpand : g.Reaches (a.flatMap (expand n)) (u.flatMap (expand n)) :=
      ReflTransGen.lift' (fun w : List Symbol => w.flatMap (expand n))
        (fun _ _ hr => he.reaches_of_rewrites hr) _ _ hr
    rwa [flatMap_singleton fun s hs => he.sound.expand_of_isSymbol (hu s hs)] at hexpand
  · intro hr
    have hsource : h.Reaches (a.flatMap (expand n)) u :=
      ReflTransGen.lift' id (fun _ _ hr => (he.derives_of_rewrites hr).to_reflTransGen) _ _ hr
    exact ReflTransGen.trans (reaches_flatMap fun s _ => he.reaches_expand s) hsource

end Explains

end Constituency.Conversion

namespace Constituency

open Relation Conversion in
/-- Conversion keeps the language of every symbol: the source and its conversion derive the same
strings of terminals from it. -/
theorem derives_toWeakNormal_iff {g : Grammar}
    (hbar : ∀ p ∈ g.productions, ∀ s ∈ p.rhs, '|' ∉ s.toList) {s : Symbol} (hs : s ∈ g.symbols)
    {u : List Symbol} (hu : ∀ t ∈ u, t ∈ g.terminals) :
    g.Derives [s] u ↔ g.toWeakNormal.grammar.Derives [s] u := by
  obtain ⟨n, he⟩ := exists_explains hbar
  constructor
  · intro hd
    exact TransGen.lift' id (fun _ _ hr => he.derives_of_rewrites hr) _ _ hd
  · intro hd
    -- the first step is by a main production, so at least one step of the source remains
    obtain ⟨b, hr, hb⟩ := TransGen.head'_iff.mp hd
    obtain ⟨q, hq, rfl, rfl⟩ := Grammar.rewrites_singleton hr
    obtain ⟨p, hp, hm⟩ := he.source q hq (Grammar.mem_symbols.mp hs)
    have hbelow : g.Reaches (q.rhs.flatMap (expand n)) (u.flatMap (expand n)) :=
      ReflTransGen.lift' (fun w : List Symbol => w.flatMap (expand n))
        (fun _ _ hr => he.reaches_of_rewrites hr) _ _ hb
    have hterminals : u.flatMap (expand n) = u := by
      apply flatMap_singleton
      intro t ht
      exact he.sound.expand_of_isSymbol
        (isSymbol_of_isTerminal (Grammar.mem_terminals.mp (hu t ht)))
    rw [hm.flatMap_expand he.sound hp, hterminals] at hbelow
    rw [hm.1]
    exact TransGen.head' (Grammar.rewrites_production hp) hbelow

/-- The names wanted here, `A+B` and `x`, are symbols of the source already. -/
theorem derives_toWeakNormal_iff_taken :
    let g := Grammar.ofProductions "S"
      [⟨"S", ["A", "B", "x"]⟩, ⟨"S", ["A+B", quote "x"]⟩, ⟨"A", []⟩, ⟨"B", ["x"]⟩,
        ⟨"A+B", ["DUMMY_A+B"]⟩]
    g.Derives ["S"] ["x", "x"] ↔ g.toWeakNormal.grammar.Derives ["S"] ["x", "x"] :=
  derives_toWeakNormal_iff (by decide +kernel) (by decide +kernel) (by decide +kernel)

end Constituency
