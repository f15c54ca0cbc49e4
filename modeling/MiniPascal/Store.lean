/-
`Store.lean` -- the values of variables.

There is one store for a whole program. It knows the variables that have been
assigned, under the names that the assignments used, and it is kept by name, so its
listing is its entries as they stand.
-/
import MiniPascal.NameMap
import MiniPascal.Number

set_option autoImplicit false

namespace MiniPascal

/-- The assigned variables and their values. -/
abbrev Store := NameMap Number

namespace Store

/-- Gives a variable a value, its first one or a new one. -/
def assign (s : Store) (name : String) (value : Number) : Store := s.insert name value

/-- The line of one variable. -/
def line (entry : String × Number) : String := entry.1 ++ " = " ++ entry.2.text ++ "\n"

/-- The listing: a line for each variable, by increasing name. -/
def text (s : Store) : String := String.join (s.entries.map line)

end Store

end MiniPascal
