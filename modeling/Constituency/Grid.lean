/-!
Triangular tables over spans. The cells of a table for `n` tokens lie in one flat array, row after
row, and the cell for a span is addressed by its two ends, each at most `n`.
-/
namespace Constituency

structure Grid (κ : Type) where
  size : Nat
  slots : Array κ
  size_slots : slots.size = (size + 1) * (size + 1)

namespace Grid

variable {κ : Type}

/-- The place of the span from `i` to `j`. -/
def slot (n i j : Nat) : Nat := i * (n + 1) + j

theorem slot_lt {n i j : Nat} (hi : i ≤ n) (hj : j ≤ n) : slot n i j < (n + 1) * (n + 1) := by
  have h : i * (n + 1) ≤ n * (n + 1) := Nat.mul_le_mul_right _ hi
  have e : (n + 1) * (n + 1) = n * (n + 1) + (n + 1) := by rw [Nat.add_mul, Nat.one_mul]
  simp only [slot]
  omega

/-- Different spans have different places. -/
theorem slot_injective {n i j k l : Nat} (hj : j ≤ n) (hl : l ≤ n) (h : slot n i j = slot n k l) :
    i = k ∧ j = l := by
  have hi : ∀ a b, b ≤ n → (a * (n + 1) + b) / (n + 1) = a := by
    intro a b hb
    rw [Nat.mul_comm, Nat.mul_add_div (by omega), Nat.div_eq_of_lt (by omega), Nat.add_zero]
  simp only [slot] at h
  have hik : i = k := by rw [← hi i j hj, h, hi k l hl]
  subst hik
  exact ⟨rfl, by omega⟩

/-- A table in which every cell is the same. -/
def replicate (n : Nat) (cell : κ) : Grid κ := ⟨n, Array.replicate _ cell, Array.size_replicate⟩

/-- The cell for a span, or `default` outside the table. -/
def get [Inhabited κ] (t : Grid κ) (i j : Nat) : κ := t.slots.getD (slot t.size i j) default

/-- Change the cell for a span. -/
def modify (t : Grid κ) (i j : Nat) (f : κ → κ) : Grid κ :=
  ⟨t.size, t.slots.modify (slot t.size i j) f, by simp [t.size_slots]⟩

@[simp] theorem size_modify (t : Grid κ) (i j : Nat) (f : κ → κ) : (t.modify i j f).size = t.size :=
  rfl

@[simp] theorem get_modify_same [Inhabited κ] (t : Grid κ) {i j : Nat} (hi : i ≤ t.size)
    (hj : j ≤ t.size) (f : κ → κ) : (t.modify i j f).get i j = f (t.get i j) := by
  have h : slot t.size i j < t.slots.size := t.size_slots ▸ slot_lt hi hj
  simp [get, modify, Array.getD, h, Array.getElem_modify]

theorem get_modify_other [Inhabited κ] (t : Grid κ) {i j k l : Nat} (hj : j ≤ t.size)
    (hl : l ≤ t.size) (h : ¬ (i = k ∧ j = l)) (f : κ → κ) :
    (t.modify i j f).get k l = t.get k l := by
  have hs : slot t.size i j ≠ slot t.size k l := fun e => h (slot_injective hj hl e)
  simp [get, modify, Array.getD_eq_getD_getElem?, Array.getElem?_modify, hs]

end Grid

end Constituency
