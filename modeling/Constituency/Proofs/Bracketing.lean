import Constituency.Tree.Bracketed

/-!
What reading a bracketed tree does with one token, and with many. A token is taken or refused; two
relations list the ways of either. A reader runs over tokens when it takes each of them in turn, and
a run that fails does so at the first token that is refused.
-/
namespace Constituency.Bracketed

/-- A token that can be a label or a word. -/
def NoBracket (token : String) : Prop := token ≠ "(" ∧ token ≠ ")"

instance (token : String) : Decidable (NoBracket token) := inferInstanceAs (Decidable (_ ∧ _))

/-- A token takes a reader to another one. -/
inductive Takes (token : String) : Reader → Reader → Prop
  | openRoot (ht : token = "(") (n : Nat) : Takes token ⟨.start, n⟩ ⟨.opened [], n⟩
  | rootWord (ht : NoBracket token) (n : Nat) :
      Takes token ⟨.start, n⟩ ⟨.done (.leaf token ⟨n, n + 1⟩), n + 1⟩
  | label (ht : NoBracket token) (fs : List Frame) (n : Nat) :
      Takes token ⟨.opened fs, n⟩ ⟨.inside ⟨token, n, []⟩ fs, n⟩
  | openChild (ht : token = "(") (f : Frame) (fs : List Frame) (n : Nat) :
      Takes token ⟨.inside f fs, n⟩ ⟨.opened (f :: fs), n⟩
  | close (ht : token = ")") {f : Frame} (hf : f.children ≠ []) (fs : List Frame) (n : Nat) :
      Takes token ⟨.inside f fs, n⟩ ⟨place (f.close n) fs, n⟩
  | word (ht : NoBracket token) (f : Frame) (fs : List Frame) (n : Nat) :
      Takes token ⟨.inside f fs, n⟩ ⟨place (.leaf token ⟨n, n + 1⟩) (f :: fs), n + 1⟩

/-- The token at this position is not taken at a stage, and why. -/
inductive Refuses (position : Nat) (token : String) : Stage → BracketError → Prop
  | start (ht : token = ")") : Refuses position token .start (.unexpected token position)
  | label (ht : ¬ NoBracket token) (fs : List Frame) :
      Refuses position token (.opened fs) (.unexpected token position)
  | close (ht : token = ")") {f : Frame} (hf : f.children = []) (fs : List Frame) :
      Refuses position token (.inside f fs) (.emptyNode f.label)
  | done (t : Tree) : Refuses position token (.done t) (.trailing token)

/-- A reader takes tokens one after the other. -/
inductive Runs : Reader → List String → Reader → Prop
  | nil (r : Reader) : Runs r [] r
  | cons {r s t : Reader} {token : String} {rest : List String} (h : Takes token r s)
      (hs : Runs s rest t) : Runs r (token :: rest) t

/-- A token is a bracket of one of the two kinds, or none. -/
theorem token_cases (token : String) : token = "(" ∨ token = ")" ∨ NoBracket token := by
  by_cases ho : token = "("
  · exact .inl ho
  · by_cases hc : token = ")"
    · exact .inr (.inl hc)
    · exact .inr (.inr ⟨ho, hc⟩)

/-- A step gives the reader that the token leads to, or the reason why the token is refused. -/
theorem step_cases (r : Reader) (position : Nat) (token : String) :
    (∃ s, r.step position token = .ok s ∧ Takes token r s) ∨
    ∃ e, r.step position token = .error e ∧ Refuses position token r.stage e := by
  obtain ⟨stage, n⟩ := r
  cases stage with
  | start =>
    obtain rfl | rfl | ht := token_cases token
    · exact .inl ⟨_, rfl, .openRoot rfl n⟩
    · exact .inr ⟨_, rfl, .start rfl⟩
    · exact .inl ⟨_, by simp only [Reader.step, if_neg ht.1, if_neg ht.2]; rfl, .rootWord ht n⟩
  | opened fs =>
    by_cases hb : token = "(" ∨ token = ")"
    · exact .inr ⟨_, if_pos hb, .label (fun ht => hb.elim ht.1 ht.2) fs⟩
    · exact .inl ⟨_, if_neg hb, .label (not_or.mp hb) fs n⟩
  | inside f fs =>
    obtain rfl | rfl | ht := token_cases token
    · exact .inl ⟨_, rfl, .openChild rfl f fs n⟩
    · by_cases hf : f.children = []
      · exact .inr ⟨_, by simp [Reader.step, hf], .close rfl hf fs⟩
      · exact .inl ⟨_, by simp [Reader.step, hf], .close rfl hf fs n⟩
    · exact .inl ⟨_, by simp only [Reader.step, if_neg ht.1, if_neg ht.2]; rfl, .word ht f fs n⟩
  | done t => exact .inr ⟨_, rfl, .done t⟩

theorem Takes.step_eq {token : String} {r s : Reader} (h : Takes token r s) (position : Nat) :
    r.step position token = .ok s := by
  cases h with
  | openRoot ht => simp [Reader.step, ht]
  | rootWord ht => simp [Reader.step, Reader.leaf, ht.1, ht.2]
  | label ht => simp [Reader.step, ht.1, ht.2]
  | openChild ht => simp [Reader.step, ht]
  | close ht hf => simp [Reader.step, ht, hf]
  | word ht => simp [Reader.step, Reader.leaf, ht.1, ht.2]

theorem run_cons_of_step {r s : Reader} {position : Nat} {token : String}
    (h : r.step position token = .ok s) (rest : List String) :
    r.run position (token :: rest) = s.run (position + 1) rest := by
  rw [Reader.run, h]

/-- Either all tokens are taken, or there is a first one that is not. -/
theorem run_cases (r : Reader) (position : Nat) (tokens : List String) :
    (∃ s, r.run position tokens = .ok s ∧ Runs r tokens s) ∨
    ∃ front token back s e, tokens = front ++ token :: back ∧ Runs r front s ∧
      Refuses (position + front.length) token s.stage e ∧ r.run position tokens = .error e := by
  induction tokens generalizing r position with
  | nil => exact .inl ⟨r, rfl, .nil r⟩
  | cons token rest ih =>
    obtain ⟨s, hstep, htakes⟩ | ⟨e, hstep, hrefuses⟩ := step_cases r position token
    · rw [run_cons_of_step hstep]
      obtain ⟨t, ht, hruns⟩ | ⟨front, last, back, t, e, heq, hruns, hrefuses, he⟩ :=
        ih s (position + 1)
      · exact .inl ⟨t, ht, .cons htakes hruns⟩
      · refine .inr ⟨token :: front, last, back, t, e, by rw [heq, List.cons_append],
          .cons htakes hruns, ?_, he⟩
        rwa [List.length_cons, Nat.add_comm front.length, ← Nat.add_assoc]
    · exact .inr ⟨[], token, rest, r, e, rfl, .nil r, hrefuses, by rw [Reader.run, hstep]⟩

theorem Runs.run_eq {r s : Reader} {tokens : List String} (h : Runs r tokens s) (position : Nat) :
    r.run position tokens = .ok s := by
  induction h generalizing position with
  | nil => rfl
  | cons htakes _ ih => rw [run_cons_of_step (htakes.step_eq position), ih]

theorem Runs.append {r s t : Reader} {xs ys : List String} (hx : Runs r xs s) (hy : Runs s ys t) :
    Runs r (xs ++ ys) t := by
  induction hx with
  | nil => exact hy
  | cons htakes _ ih => exact .cons htakes (ih hy)

theorem Runs.append_inv {r t : Reader} {xs ys : List String} (h : Runs r (xs ++ ys) t) :
    ∃ s, Runs r xs s ∧ Runs s ys t := by
  induction xs generalizing r with
  | nil => exact ⟨r, .nil r, h⟩
  | cons x xs ih =>
    cases h with
    | cons htakes hs =>
      obtain ⟨s, hxs, hys⟩ := ih hs
      exact ⟨s, .cons htakes hxs, hys⟩

theorem Takes.runs {token : String} {r s : Reader} (h : Takes token r s) : Runs r [token] s :=
  .cons h (.nil s)

/-- Tokens read as a tree when the reader has run over them and is done. -/
theorem readTokens_eq_ok_iff {tokens : List String} {t : Tree} :
    readTokens tokens = .ok t ↔ ∃ n, Runs Reader.initial tokens ⟨.done t, n⟩ := by
  constructor
  · intro h
    obtain ⟨s, hrun, hruns⟩ | ⟨_, _, _, _, _, _, _, _, hrun⟩ := run_cases Reader.initial 0 tokens
    · obtain ⟨stage, n⟩ := s
      rw [readTokens, hrun] at h
      cases stage with
      | done u =>
        obtain rfl := Except.ok.inj h
        exact ⟨n, hruns⟩
      | start | opened | inside => cases h
    · rw [readTokens, hrun] at h
      cases h
  · intro ⟨n, h⟩
    rw [readTokens, h.run_eq]
    rfl

end Constituency.Bracketed
