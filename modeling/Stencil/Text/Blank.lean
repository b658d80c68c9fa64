import Stencil.Text.Search

/-!
# White space

The characters with the Unicode property White_Space, and the text between the first and the
last character without it.
-/

namespace Stencil.Text

/-- The characters with the property White_Space. -/
def isBlank (c : Char) : Bool :=
  let n := c.toNat
  (0x09 ≤ n && n ≤ 0x0D) || n == 0x20 || n == 0x85 || n == 0xA0 || n == 0x1680 ||
    (0x2000 ≤ n && n ≤ 0x200A) || n == 0x2028 || n == 0x2029 || n == 0x202F ||
    n == 0x205F || n == 0x3000

/-- The text without white space at either end. -/
def trim (s : String) : String :=
  String.ofList (trimBoth isBlank s.toList)

/-- Every blank of ASCII is white space. -/
theorem isBlank_of_isWhitespace {c : Char} (h : c.isWhitespace = true) : isBlank c = true := by
  simp only [Char.isWhitespace, Bool.or_eq_true, decide_eq_true_eq] at h
  rcases h with ((h | h) | h) | h <;> subst h <;> decide

end Stencil.Text
