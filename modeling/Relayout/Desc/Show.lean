import Relayout.Desc.Basic

/-!
# Descriptors in messages

A primitive is its name and a size its number. An array is `[elem:len]`, a
struct lists its fields as `name:type@offset` in braces, and a variant lists its
constructors as `name:type=tag` between bars.
-/

namespace Relayout.Desc

mutual

def display : Desc → Text
  | prim name => name
  | nat value => value.toText
  | array elem len => Text.unit '[' :: (display elem ++ ":" ++ display len ++ "]")
  | struct fields =>
    Text.unit '\x7b' :: (Text.join ", " (displayFields fields) ++ [Text.unit '\x7d'])
  | variant ctors => Text.unit '|' :: (Text.join ", " (displayCtors ctors) ++ "|")

def displayFields : List (Field Desc) → List Text
  | [] => []
  | f :: rest => (f.name ++ ":" ++ display f.type ++ "@" ++ f.offset.toText) :: displayFields rest

def displayCtors : List (Ctor Desc) → List Text
  | [] => []
  | c :: rest => (c.name ++ ":" ++ display c.type ++ "=" ++ c.id.toText) :: displayCtors rest

end

end Relayout.Desc
