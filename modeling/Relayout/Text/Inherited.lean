import Relayout.Text.Basic

/-!
# Inherited names

A table that is asked for a name answers with its own entry, or else with what
all tables inherit under a few names: operations, and the base that they are
inherited from. None of that is a number. In running text it has a fixed form.
-/

namespace Relayout.Inherited

/-- The name of the base. -/
def baseName : Text := "__proto__"

/-- The names of the operations that are named after themselves. -/
def operations : List Text :=
  ["__defineGetter__", "__defineSetter__", "__lookupGetter__", "__lookupSetter__",
   "hasOwnProperty", "isPrototypeOf", "propertyIsEnumerable", "toLocaleString", "toString",
   "valueOf"]

/-- An operation in running text. -/
def displayOperation (name : Text) : Text :=
  "function " ++ name ++ "() \x7b [native code] \x7d"

/-- What is inherited under a name, as it stands in running text. -/
def find? (name : Text) : Option Text :=
  if name = baseName then some "[object Object]"
  else if name = Text.ofString "constructor" then some (displayOperation "Object")
  else if operations.contains name then some (displayOperation name)
  else none

end Relayout.Inherited
