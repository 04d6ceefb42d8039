import Relayout.Text.Basic

/-!
# Blanks around a text

The blank units are the space separators and line ends of the Unicode standard,
the tab, the vertical tab, the form feed, and the byte order mark U+FEFF. The
next-line control U+0085 is not among them.
-/

namespace Relayout.Text

/-- Closed ranges of blank units, ascending and apart. -/
def blankRanges : List (Nat × Nat) :=
  [(0x09, 0x0D), (0x20, 0x20), (0xA0, 0xA0), (0x1680, 0x1680), (0x2000, 0x200A),
   (0x2028, 0x2029), (0x202F, 0x202F), (0x205F, 0x205F), (0x3000, 0x3000), (0xFEFF, 0xFEFF)]

def isBlank (u : UInt16) : Bool :=
  blankRanges.any fun range => range.1 ≤ u.toNat && u.toNat ≤ range.2

/-- The text without the blanks at its two ends. -/
def trim (t : Text) : Text :=
  ((t.dropWhile isBlank).reverse.dropWhile isBlank).reverse

end Relayout.Text
