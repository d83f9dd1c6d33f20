/-!
Grammar symbols. A symbol is a text. The terminal for a word is spelled with quotes around it,
and a sequence of symbols has a key, its symbols joined by single spaces.
-/
namespace Constituency

abbrev Symbol := String

/-- The terminal that stands for a word. -/
def quote (word : String) : Symbol := "\"" ++ word ++ "\""

/-- A symbol without one pair of surrounding quotes, if it has both. -/
def unquote (symbol : Symbol) : String :=
  match symbol.toList with
  | [] => symbol
  | c :: rest =>
    if c = '"' ∧ rest.getLast? = some '"' then String.ofList rest.dropLast else symbol

theorem toList_quote (word : String) : (quote word).toList = '"' :: (word.toList ++ ['"']) := by
  simp [quote, String.toList_append]

@[simp] theorem unquote_quote (word : String) : unquote (quote word) = word := by
  simp [unquote, toList_quote]

/-- Symbols joined by a separator. -/
def joinWith (separator : String) : List Symbol → String
  | [] => ""
  | [s] => s
  | s :: t :: rest => s ++ separator ++ joinWith separator (t :: rest)

/-- The key of a right-hand side. Two sides share a key when a space inside a symbol reads like a
gap between symbols. -/
def rhsKey (rhs : List Symbol) : String := joinWith " " rhs

@[simp] theorem rhsKey_nil : rhsKey [] = "" := rfl
@[simp] theorem rhsKey_singleton (s : Symbol) : rhsKey [s] = s := rfl

end Constituency
