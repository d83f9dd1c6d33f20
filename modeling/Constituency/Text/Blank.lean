/-!
Blank characters, and the words they separate. A character is blank when it has the `White_Space`
property: 25 characters in ten ranges. A word is a maximal run of characters that are not blank.
-/
namespace Constituency.Text

/-- Closed ranges of code points. -/
abbrev Ranges := List (Nat × Nat)

def Ranges.contains (rs : Ranges) (n : Nat) : Bool :=
  rs.any fun r => r.1 ≤ n && n ≤ r.2

def blankRanges : Ranges :=
  [(0x09, 0x0D), (0x20, 0x20), (0x85, 0x85), (0xA0, 0xA0), (0x1680, 0x1680), (0x2000, 0x200A),
   (0x2028, 0x2029), (0x202F, 0x202F), (0x205F, 0x205F), (0x3000, 0x3000)]

def isBlank (c : Char) : Bool := blankRanges.contains c.toNat

@[simp] theorem isBlank_space : isBlank ' ' = true := by decide
@[simp] theorem isBlank_newline : isBlank '\n' = true := by decide
@[simp] theorem isBlank_return : isBlank '\r' = true := by decide

/-- The words of a text, left to right. -/
def words (s : List Char) : List (List Char) :=
  (s.splitOnP isBlank).filter fun w => !w.isEmpty

@[simp] theorem words_nil : words [] = [] := rfl

/-- No word reaches over a blank. -/
theorem words_append_blank {c : Char} (h : isBlank c = true) (s t : List Char) :
    words (s ++ c :: t) = words s ++ words t := by
  rw [words, List.splitOnP_append_cons s t h, List.filter_append]
  rfl

/-- A text without blanks is its own only word. -/
theorem words_eq_singleton {w : List Char} (hne : w ≠ []) (h : ∀ c ∈ w, isBlank c = false) :
    words w = [w] := by
  rw [words, List.splitOnP_eq_singleton h]
  simpa using hne

theorem ne_nil_of_mem_words {s w : List Char} (h : w ∈ words s) : w ≠ [] := by
  simp only [words, List.mem_filter] at h
  simpa using h.2

/-- What follows the first word, separator included. -/
def afterWord (s : List Char) : List Char :=
  (s.dropWhile isBlank).dropWhile fun c => !isBlank c

/-- A text without the blanks at its two ends. -/
def trim (s : List Char) : List Char :=
  ((s.dropWhile isBlank).reverse.dropWhile isBlank).reverse

/-- The words of a string, as strings. -/
def wordsOf (s : String) : List String := (words s.toList).map String.ofList

end Constituency.Text
