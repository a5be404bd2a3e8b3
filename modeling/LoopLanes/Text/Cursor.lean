/-
A place in a text, and the rules that read from it.

A `Rule` answers a result and the place behind what it has read, or nothing; it
never consumes on failure, so alternatives are tried from the same place.
Repetition is greedy.  Blanks and comments (from `;` to the end of the line)
are skipped where a grammar says so, by `skip`.

* `many_eq` — the equation of repetition;
* `Cursor.skip_idem` — skipping twice skips no more than skipping once.
-/

namespace LoopLanes.Text

/-- A line and a column, both from 1; the column counts characters. -/
structure Position where
  line : Nat
  col : Nat
  deriving DecidableEq, Inhabited, Repr

/-- The rest of a text and the position of its first character. -/
structure Cursor where
  rest : List Char
  line : Nat
  col : Nat
  deriving Inhabited

namespace Cursor

/-- The start of a text. -/
def ofString (s : String) : Cursor := ⟨s.toList, 1, 1⟩

/-- The position of a cursor. -/
def position (c : Cursor) : Position := ⟨c.line, c.col⟩

/-- Characters that separate tokens. -/
def isBlank (ch : Char) : Bool := ch = ' ' || ch = '\t' || ch = '\r' || ch = '\n'

/-- Skips blanks and comments; `inComment` says that a comment is open. -/
def skipFrom (line col : Nat) : Bool → List Char → Cursor
  | _, [] => ⟨[], line, col⟩
  | true, ch :: cs =>
    if ch = '\n' then skipFrom (line + 1) 1 false cs
    else skipFrom line (col + 1) true cs
  | false, ch :: cs =>
    if ch = '\n' then skipFrom (line + 1) 1 false cs
    else if isBlank ch then skipFrom line (col + 1) false cs
    else if ch = ';' then skipFrom line (col + 1) true cs
    else ⟨ch :: cs, line, col⟩

/-- Skips blanks and comments. -/
def skip (c : Cursor) : Cursor := skipFrom c.line c.col false c.rest

/-- Moves behind `n` characters of the current line. -/
def advance (c : Cursor) (n : Nat) : Cursor := ⟨c.rest.drop n, c.line, c.col + n⟩

theorem skip_skipFrom (line col : Nat) (inComment : Bool) (cs : List Char) :
    (skipFrom line col inComment cs).skip = skipFrom line col inComment cs := by
  induction cs generalizing line col inComment with
  | nil => cases inComment <;> rfl
  | cons ch cs ih =>
    cases inComment with
    | true =>
      simp only [skipFrom]
      split <;> exact ih ..
    | false =>
      simp only [skipFrom]
      split
      · exact ih ..
      · split
        · exact ih ..
        · split
          · exact ih ..
          · simp_all [skip, skipFrom]

theorem skip_idem (c : Cursor) : c.skip.skip = c.skip := skip_skipFrom ..

end Cursor

/-- A rule of a grammar. -/
abbrev Rule (α : Type) := StateT Cursor Option α

/-- Skips blanks and comments. -/
def skip : Rule Unit := modify Cursor.skip

/-- The position of what comes next. -/
def here : Rule Position := return (← get).position

/-- Reads a fixed word. -/
def word (w : String) : Rule Unit := fun c =>
  if w.toList.isPrefixOf c.rest then some ((), c.advance w.length) else none

/-- Reads one of some fixed words and answers what it stands for. -/
def oneOf (words : List (String × α)) : Rule α := fun c =>
  words.findSome? fun (w, a) =>
    if w.toList.isPrefixOf c.rest then some (a, c.advance w.length) else none

/-- Reads one character of a class. -/
def charIf (p : Char → Bool) : Rule Char := fun c =>
  match c.rest with
  | ch :: _ => if p ch then some (ch, c.advance 1) else none
  | [] => none

/-- Reads as many characters of a class as there are. -/
def charsWhile (p : Char → Bool) : Rule (List Char) := fun c =>
  let cs := c.rest.takeWhile p
  some (cs, c.advance cs.length)

/-- Reads one or more characters of a class. -/
def chars1 (p : Char → Bool) : Rule (List Char) := fun c =>
  let cs := c.rest.takeWhile p
  if cs.isEmpty then none else some (cs, c.advance cs.length)

/-- Tries a rule; without it nothing is read. -/
def option (r : Rule α) : Rule (Option α) := fun c =>
  match r c with
  | some (a, c') => some (some a, c')
  | none => some (none, c)

/-- Repeats a rule until it fails or reads nothing, `fuel` times at most. -/
def repeatRule (r : Rule α) : Nat → Cursor → List α × Cursor
  | 0, c => ([], c)
  | fuel + 1, c =>
    match r c with
    | none => ([], c)
    | some (a, c') =>
      if c'.rest.length < c.rest.length then
        let (as, c'') := repeatRule r fuel c'
        (a :: as, c'')
      else ([], c)

/-- Repeats a rule until it fails or reads nothing.  Every round reads a
character, so there are no more rounds than characters. -/
def many (r : Rule α) (c : Cursor) : List α × Cursor := repeatRule r c.rest.length c

theorem repeatRule_of_le (r : Rule α) (fuel : Nat) (c : Cursor) (h : c.rest.length ≤ fuel) :
    repeatRule r fuel c = many r c := by
  have more : ∀ n m (c : Cursor), c.rest.length ≤ n → c.rest.length ≤ m →
      repeatRule r n c = repeatRule r m c := by
    intro n
    induction n with
    | zero =>
      intro m c hn _
      cases m with
      | zero => rfl
      | succ m =>
        simp only [repeatRule]
        split
        · rfl
        · rw [if_neg (by omega)]
    | succ n ih =>
      intro m c hn hm
      cases m with
      | zero =>
        simp only [repeatRule]
        split
        · rfl
        · rw [if_neg (by omega)]
      | succ m =>
        simp only [repeatRule]
        split
        · rfl
        · split
          · rw [ih m _ (by omega) (by omega)]
          · rfl
  exact more _ _ c h (Nat.le_refl _)

theorem many_eq (r : Rule α) (c : Cursor) :
    many r c =
      match r c with
      | none => ([], c)
      | some (a, c') =>
        if c'.rest.length < c.rest.length then (a :: (many r c').1, (many r c').2)
        else ([], c) := by
  rw [← repeatRule_of_le r (c.rest.length + 1) c (Nat.le_succ _)]
  simp only [repeatRule]
  split
  · rfl
  · rename_i a c' _
    split
    · rw [repeatRule_of_le r c.rest.length c' (by omega)]
    · rfl

/-- A rule any number of times, blanks between. -/
def star (r : Rule α) : Rule (List α) := fun c =>
  match r c with
  | none => some ([], c)
  | some (a, c') =>
    let (as, c'') := many (skip *> r) c'
    some (a :: as, c'')

/-- A rule one or more times, with commas between. -/
def commaSeparated (r : Rule α) : Rule (List α) := fun c =>
  match r c with
  | none => none
  | some (a, c') =>
    let (as, c'') := many (do skip; word ","; skip; r) c'
    some (a :: as, c'')

end LoopLanes.Text
