import Relayout.Text.Basic

/-!
# Filling a place in a text

A place is the first occurrence of a pattern. What is put there is not taken
literally: a dollar sign followed by `$`, `&`, a backquote or an apostrophe
stands for a dollar sign, the pattern itself, all that precedes the place, or
all that follows it. A dollar sign before anything else is literal.
-/

namespace Relayout.Text

/-- The inserted text with its dollar sequences written out. -/
def expandDollars (before pattern after : Text) : Text → Text
  | [] => []
  | u :: rest =>
    if u = unit '$' then
      match rest with
      | [] => [u]
      | v :: rest' =>
        if v = unit '$' then unit '$' :: expandDollars before pattern after rest'
        else if v = unit '&' then pattern ++ expandDollars before pattern after rest'
        else if v = 0x60 then before ++ expandDollars before pattern after rest'
        else if v = 0x27 then after ++ expandDollars before pattern after rest'
        else u :: v :: expandDollars before pattern after rest'
    else
      u :: expandDollars before pattern after rest

/-- Put `insert`, with its dollar sequences written out, in place of the first
occurrence of `pattern`; a text without the pattern stays as it is. -/
def replaceFirst (pattern insert text : Text) : Text :=
  match splitFirst? pattern text with
  | none => text
  | some (before, after) => before ++ expandDollars before pattern after insert ++ after

end Relayout.Text
