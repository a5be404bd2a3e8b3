/-
Constants that are written but not read.

A decimal of the grammar has a point and digits behind it.  Constants are written with the fewest
digits that tell them apart, and outside of the plain range with an exponent: where one digit is
enough, no point comes of it, and an infinite one is a word.

* `Text.decimal_constantText`, `Text.spelled_constantText` — what the grammar makes of these;
* **`Program.parse_text_of_large`** — so a program that was read may be printed as a text that is no
  program.
-/
import LoopLanes.Proofs.Text.Decimal
import LoopLanes.Proofs.Text.Parsed
import LoopLanes.Text.Reader

namespace LoopLanes

open Decimal Binary32

namespace Binary32

/-- One digit outside of the plain range is written with an exponent right behind it. -/
theorem layout_of_digit {d : Scaled} (hd : d.digits < 10)
    (hrange : ¬ (-4 ≤ d.exponent ∧ d.exponent < 16)) :
    (layout d).toList = d.digits.digitChar :: 'e' :: (toString d.exponent).toList := by
  have hs : (toString d.digits).toList = [d.digits.digitChar] := by
    rw [Nat.toString_eq_repr, Nat.toList_repr, Nat.toDigits_of_lt_base hd]
  have htop : d.exponent + ([d.digits.digitChar].length : Int) - 1 = d.exponent := by
    rw [List.length_singleton]
    omega
  unfold layout
  simp only [hs]
  rw [htop, if_neg hrange]
  simp [String.toList_append]
  rfl

end Binary32

namespace Text

theorem isDigit_digitChar {d : Nat} (h : d < 10) :
    isDigit d.digitChar = true ∧ d.digitChar ≠ '-' := by
  have : ∀ d < 10, isDigit (Nat.digitChar d) = true ∧ Nat.digitChar d ≠ '-' := by decide
  exact this d h

/-- No decimal starts with a digit and an exponent right behind it. -/
theorem decimal_of_digit {d : Char} (hd : isDigit d = true ∧ d ≠ '-') {sign : List Char}
    (hsign : sign = [] ∨ sign = ['-']) (rest : List Char) (line col : Nat) :
    decimal ⟨sign ++ d :: 'e' :: rest, line, col⟩ = none := by
  obtain ⟨hd, hne⟩ := hd
  have hwhole : (d :: 'e' :: rest).takeWhile isDigit = [d] := by
    rw [List.takeWhile_cons_of_pos hd]
    rfl
  -- the sign and the digit are read, and then there is no point
  have hpoint : ∀ col, (do
      let whole ← chars1 isDigit
      word "."
      let fraction ← chars1 isDigit
      let tail ← option exponent
      return sign ++ whole ++ '.' :: fraction ++ tail.getD [] : Rule (List Char))
        ⟨d :: 'e' :: rest, line, col⟩ = none := by
    intro col
    show Option.bind (chars1 isDigit _) _ = none
    rw [chars1, hwhole]
    rfl
  rcases hsign with rfl | rfl
  · show Option.bind (minus _) _ = none
    have hminus : minus ⟨d :: 'e' :: rest, line, col⟩ = some ([], ⟨d :: 'e' :: rest, line, col⟩) := by
      show Option.bind (option _ _) _ = _
      simp [option, charIf, hne]
      rfl
    rw [List.nil_append, hminus]
    exact hpoint col
  · exact hpoint (col + 1)

/-- A constant that is written with one digit and an exponent is no decimal. -/
theorem decimal_constantText {x : Float32} {m : Nat} {e : Int} {narrow : Bool}
    (hx : magnitude x = .finite m e narrow) (hm : m ≠ 0)
    (hd : (shortestDecimal m e narrow).digits < 10)
    (hrange : ¬ (-4 ≤ (shortestDecimal m e narrow).exponent ∧
      (shortestDecimal m e narrow).exponent < 16)) (rest : List Char) (line col : Nat) :
    decimal ⟨(constantText x).toList ++ rest, line, col⟩ = none := by
  have hsign : (signText x).toList = [] ∨ (signText x).toList = ['-'] := by
    unfold signText
    split
    · exact .inr rfl
    · exact .inl rfl
  simp only [constantText, hx, if_neg hm, String.toList_append, layout_of_digit hd hrange,
    List.append_assoc, List.cons_append]
  exact decimal_of_digit (isDigit_digitChar hd) hsign _ line col

end Text

/-- Ten quadrillions. -/
def large : String := "define f32 @f() {
entry:
  ret f32 10000000000000000.0
}
"

set_option maxRecDepth 100000 in
/-- They are read as a decimal, and written with an exponent behind their only digit. -/
theorem Program.parse_text_of_large : ∃ p, Program.parse large = .ok p ∧
    p.text = "define f32 @f() {
entry:
  ret f32 1e16
}
" ∧
    Program.parse p.text = .error .grammar := by
  have h : (match Program.parse large with
      | .error _ => false
      | .ok p => p.text == "define f32 @f() {
entry:
  ret f32 1e16
}
" &&
          match Program.parse p.text with
          | .error e => e == .grammar
          | .ok _ => false) = true := by decide +kernel
  split at h
  case h_1 => cases h
  rename_i p hp
  obtain ⟨htext, h⟩ := Bool.and_eq_true_iff.mp h
  split at h
  · rename_i e he
    exact ⟨p, hp, beq_iff_eq.mp htext, (beq_iff_eq.mp h) ▸ he⟩
  · cases h

end LoopLanes
