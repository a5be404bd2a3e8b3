/-
Texts that are written out, and what is read from them.

Each character of a text is found by a walk from its front, so that a text of several lines takes
longer to take apart than to read.  `Program.exists_of_chars` starts from the list of the characters,
and `toList_append_of` puts this list together from those of the pieces.
-/
import LoopLanes.Text.Reader
import LoopLanes.Proofs.Basic.Success

namespace LoopLanes

theorem toList_append_of {s t : String} {cs ds : List Char} (ht : t.toList = ds) (hs : s.toList = cs) :
    (s ++ t).toList = cs ++ ds := by
  rw [String.toList_append, hs, ht]

namespace Program

/-- Reading starts from the characters of the text. -/
theorem parse_eq (s : String) : Program.parse s = ((Text.program ⟨s.toList, 1, 1⟩).map (·.1)).elim
    (.error .grammar) (Program.ofDefinitions · 0) := by
  rw [Program.parse, Program.parseFrom, Text.definitions?, Text.Cursor.ofString]
  cases (Text.program ⟨s.toList, 1, 1⟩).map (·.1) <;> rfl

/-- Where a check of what is read from the characters of a text holds, the text is a program that
passes it. -/
theorem exists_of_chars {s : String} {cs : List Char} {P : Program → Bool} (hs : s.toList = cs)
    (h : (((Text.program ⟨cs, 1, 1⟩).map (·.1)).elim (.error .grammar)
      (Program.ofDefinitions · 0)).toOption.any P = true) : ∃ p, Program.parse s = .ok p ∧ P p = true := by
  subst hs
  exact exists_of_any (parse_eq s ▸ h)

end Program

end LoopLanes
