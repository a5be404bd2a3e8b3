/-
Loop hints: named facts and wishes about a loop, carried by the terminator that
closes it.

The hints form an ordered list of keys, each with an optional integer.  Setting
a key that is present changes its value in place, so a key occurs once.
-/
import LoopLanes.Basic.Table

namespace LoopLanes

/-- Hints in the order they were given. -/
structure Hints where
  entries : List (String × Option Int)
  deriving DecidableEq, Inhabited, Repr

namespace Hints

/-- No hints at all. -/
def empty : Hints := ⟨[]⟩

/-- Whether a key is present, with or without a value. -/
def has (h : Hints) (key : String) : Bool := h.entries.any (·.1 == key)

/-- The integer of a key. -/
def getInt? (h : Hints) (key : String) : Option Int :=
  (h.entries.lookup key).join

/-- Sets a key. -/
def set (h : Hints) (key : String) (value : Option Int) : Hints :=
  ⟨setEntry key value h.entries⟩

/-- Removes a key. -/
def remove (h : Hints) (key : String) : Hints :=
  ⟨h.entries.filter (·.1 != key)⟩

/-- Removes every key that starts with `start`. -/
def removeStarting (h : Hints) (start : String) : Hints :=
  ⟨h.entries.filter fun e => !e.1.startsWith start⟩

/-- Whether there are no hints. -/
def isEmpty (h : Hints) : Bool := h.entries.isEmpty

/-- One hint: `key` or `key = value`. -/
def entryText : String × Option Int → String
  | (k, some v) => s!"{k} = {v}"
  | (k, none) => k

/-- The hints as written after a terminator. -/
def text (h : Hints) : String :=
  "!loop \x7b" ++ ", ".intercalate (h.entries.map entryText) ++ "\x7d"

theorem has_set (h : Hints) (key : String) (value : Option Int) :
    (h.set key value).has key = true := by
  obtain ⟨es⟩ := h
  simp only [set, has]
  induction es with
  | nil => simp [setEntry]
  | cons e rest ih =>
    simp only [setEntry]
    split <;> simp_all

end Hints

end LoopLanes
