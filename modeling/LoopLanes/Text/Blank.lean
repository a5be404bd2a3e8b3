/-
White space as Unicode defines it, and trimming by it.
-/

namespace LoopLanes.Text

/-- The characters with the property `White_Space`. -/
def isWhiteSpace (c : Char) : Bool :=
  let n := c.toNat
  (0x9 ≤ n && n ≤ 0xd) || n = 0x20 || n = 0x85 || n = 0xa0 || n = 0x1680 ||
    (0x2000 ≤ n && n ≤ 0x200a) || n = 0x2028 || n = 0x2029 || n = 0x202f || n = 0x205f ||
    n = 0x3000

/-- A text without white space at either end. -/
def trim (s : String) : String :=
  let cs := s.toList.dropWhile isWhiteSpace
  String.ofList (cs.reverse.dropWhile isWhiteSpace).reverse

theorem isWhiteSpace_of_isWhitespace (c : Char) (h : c.isWhitespace) : isWhiteSpace c := by
  simp only [Char.isWhitespace, Bool.or_eq_true, decide_eq_true_eq] at h
  rcases h with ((h | h) | h) | h <;> subst h <;> decide

end LoopLanes.Text
