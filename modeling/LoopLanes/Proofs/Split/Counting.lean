/-
Counting in groups.

A loop that counts with a 32-bit word runs its body for the values `visits`.  Its split form
takes `W` of them at a time while a guard holds, and goes on one by one afterwards
(`splitVisits`).  Where the guard only holds if all `W` values of a group pass the test of the
loop, both run through the same values, also where the words wrap around.

* `take_splitVisits` — the split form visits what the loop does, up to any number of values;
* `test_lanes` — if the last of `W` values passes the test without leaving the word, all do;
* `RuntimeBound.test_value` — the strict guard holds only for such groups.
-/
import Mathlib.Data.List.Basic
import Mathlib.Tactic.Linarith
import Mathlib.Tactic.Ring
import LoopLanes.Lanes.Cell
import LoopLanes.Proofs.Basic.Words
import LoopLanes.Split.Plan

namespace LoopLanes

/-- The values for which a loop that counts from `iv` runs its body, the first `n` of them. -/
def visits (goesOn : Int32 → Bool) (step : Int) : Nat → Int32 → List Int32
  | 0, _ => []
  | n + 1, iv => if goesOn iv then iv :: visits goesOn step n (iv + .ofInt step) else []

/-- The values of `width` lanes that start from `iv`. -/
def lanesFrom (step : Int) (width : Nat) (iv : Int32) : List Int32 :=
  (List.range width).map fun k => iv + .ofInt (k * step)

/-- The values that a split loop visits: in groups of `width` lanes while the guard holds, `n`
groups at most, and one by one from where it fails. -/
def splitVisits (guard goesOn : Int32 → Bool) (advance step : Int) (width : Nat) :
    Nat → Int32 → List Int32
  | 0, _ => []
  | n + 1, iv =>
    if guard iv then
      lanesFrom step width iv ++
        splitVisits guard goesOn advance step width n (iv + .ofInt advance)
    else visits goesOn step (n + 1) iv

section Counting

variable {guard goesOn : Int32 → Bool} {step : Int}

theorem add_ofInt_succ (iv : Int32) (k : Nat) (step : Int) :
    iv + .ofInt step + .ofInt (k * step) = iv + .ofInt ((k + 1 : Nat) * step) := by
  rw [Int32.add_assoc, ← Int32.ofInt_add]
  congr 2
  push_cast
  ring

theorem lanesFrom_succ (step : Int) (width : Nat) (iv : Int32) :
    lanesFrom step (width + 1) iv = iv :: lanesFrom step width (iv + .ofInt step) := by
  rw [lanesFrom, List.range_succ_eq_map, List.map_cons, List.map_map, lanesFrom]
  congr 1
  · simp
  · exact List.map_congr_left fun k _ => (add_ofInt_succ iv k step).symm

theorem take_visits (goesOn : Int32 → Bool) (step : Int) : ∀ (m n : Nat) (iv : Int32),
    (visits goesOn step n iv).take m = visits goesOn step (min m n) iv := by
  intro m n
  induction n generalizing m with
  | zero => simp [visits]
  | succ n ih =>
    intro iv
    cases m with
    | zero => simp [visits]
    | succ m =>
      rw [Nat.add_min_add_right, visits, visits]
      split
      · rw [List.take_succ_cons, ih]
      · rfl

/-- A group all of whose lanes pass the test is visited as a whole. -/
theorem visits_add {width : Nat} : ∀ {iv : Int32} (n : Nat),
    (∀ k < width, goesOn (iv + .ofInt (k * step)) = true) →
      visits goesOn step (width + n) iv =
        lanesFrom step width iv ++ visits goesOn step n (iv + .ofInt (width * step)) := by
  induction width with
  | zero => intro iv n _; simp [lanesFrom]
  | succ width ih =>
    intro iv n h
    have hfirst : goesOn iv = true := by simpa using h 0 (by omega)
    have hrest : ∀ k < width, goesOn (iv + .ofInt step + .ofInt (k * step)) = true := by
      intro k hk
      rw [add_ofInt_succ]
      exact h (k + 1) (by omega)
    rw [show width + 1 + n = width + n + 1 by omega, visits, if_pos hfirst, ih n hrest,
      lanesFrom_succ, add_ofInt_succ, List.cons_append]

/-- A split loop visits what the loop does, up to any number of values. -/
theorem take_splitVisits {width : Nat} (hwidth : 0 < width)
    (hlanes : ∀ iv, guard iv = true → ∀ k < width, goesOn (iv + .ofInt (k * step)) = true) :
    ∀ (n : Nat) (iv : Int32),
      (splitVisits guard goesOn (width * step) step width n iv).take n = visits goesOn step n iv := by
  intro n
  induction n with
  | zero => intro iv; rfl
  | succ n ih =>
    intro iv
    rw [splitVisits]
    split
    · rename_i hg
      -- the rest of the prefix is covered by the `n` groups that follow
      have hfirst : visits goesOn step (n + 1) iv =
          (visits goesOn step (width + n) iv).take (n + 1) := by
        rw [take_visits]
        congr 1
        omega
      rw [hfirst, visits_add n (hlanes iv hg), List.take_append, List.take_append, ← ih,
        List.take_take]
      congr 2
      simp only [lanesFrom, List.length_map, List.length_range]
      omega
    · rw [take_visits, Nat.min_self]

end Counting

/-! ### Tests on words -/

namespace CompOp

/-- Whether a predicate holds of two words. -/
def onWords (op : CompOp) (a b : Int32) : Bool :=
  (Cell.test op (.int a) (.int b)).toOption.getD false

@[simp] theorem onWords_eq {a b : Int32} : eq.onWords a b = (a == b) := rfl

@[simp] theorem onWords_ne {a b : Int32} : ne.onWords a b = !(a == b) := rfl

@[simp] theorem onWords_slt {a b : Int32} : slt.onWords a b = decide (a < b) := rfl

@[simp] theorem onWords_sle {a b : Int32} : sle.onWords a b = decide (a ≤ b) := rfl

@[simp] theorem onWords_sgt {a b : Int32} : sgt.onWords a b = decide (b < a) := rfl

@[simp] theorem onWords_sge {a b : Int32} : sge.onWords a b = decide (b ≤ a) := rfl

/-- Whether an order holds of two numbers. -/
def OnInts : CompOp → Int → Int → Prop
  | slt, a, b => a < b
  | sle, a, b => a ≤ b
  | sgt, a, b => b < a
  | sge, a, b => b ≤ a
  | _, _, _ => False

/-- The orders that a loop of this step runs into from one side. -/
def Monotone (op : CompOp) (step : Int) : Prop :=
  match op with
  | slt | sle => 0 < step
  | sgt | sge => step < 0
  | _ => False

theorem onWords_iff {op : CompOp} {step : Int} (hop : op.Monotone step) {a b : Int32} :
    op.onWords a b = true ↔ op.OnInts a.toInt b.toInt := by
  cases op <;> first
    | exact hop.elim
    | simp [OnInts, Int32.lt_iff_toInt_lt, Int32.le_iff_toInt_le]

end CompOp

/-- If the last of `width` lanes passes the test without leaving the word, all
lanes do. -/
theorem test_lanes {op : CompOp} {step : Int} (hop : op.Monotone step) {iv e : Int32} {width k : Nat}
    (h : op.OnInts (iv.toInt + step * (width - 1)) e.toInt) (hk : k < width) :
    op.onWords (iv + .ofInt (k * step)) e = true := by
  have hi := toInt_mem iv
  have he := toInt_mem e
  have hk' : (k : Int) ≤ width - 1 := by omega
  cases op <;> try exact hop.elim
  -- lanes of a positive step lie between the first one and the last one
  case slt | sle =>
    have hstep : 0 < step := hop
    have h0 : 0 ≤ (k : Int) * step := by positivity
    have hle : (k : Int) * step ≤ step * (width - 1) := by nlinarith
    simp only [CompOp.OnInts] at h
    rw [CompOp.onWords_iff hop, toInt_add_ofInt (by omega) (by omega)]
    simp only [CompOp.OnInts]
    omega
  case sgt | sge =>
    have hstep : step < 0 := hop
    have h0 : (k : Int) * step ≤ 0 := by nlinarith
    have hle : step * (width - 1) ≤ (k : Int) * step := by nlinarith
    simp only [CompOp.OnInts] at h
    rw [CompOp.onWords_iff hop, toInt_add_ofInt (by omega) (by omega)]
    simp only [CompOp.OnInts]
    omega

/-! ### The guard -/

/-- The bound that the instructions of a guard compute. -/
def RuntimeBound.value (b : RuntimeBound) (e : Int32) : Int32 :=
  if b.op.onWords e (.ofInt (b.saturate + b.shift)) then .ofInt b.saturate else e - .ofInt b.shift

/-- Below a bound that is shifted down, or that saturates at the least word. -/
theorem RuntimeBound.lt_of_test_down {shift : Int} (h0 : 0 ≤ shift) (hfit : shift ≤ i32Max)
    {iv e : Int32} (h : CompOp.slt.onWords iv ((⟨.slt, shift, i32Min⟩ : RuntimeBound).value e) = true) :
    iv.toInt + shift < e.toInt := by
  have hiv := toInt_mem iv
  have he := toInt_mem e
  have hslt : CompOp.slt.Monotone 1 := Int.one_pos
  have hlow : (Int32.ofInt (i32Min + shift)).toInt = i32Min + shift :=
    toInt_ofInt (by omega) (by simp only [i32Min, i32Max] at *; omega)
  rw [CompOp.onWords_iff hslt] at h
  simp only [value] at h
  split at h
  · rw [toInt_ofInt (by decide) (by decide)] at h
    simp only [CompOp.OnInts] at h
    omega
  · rename_i hsat
    simp only [CompOp.onWords_iff hslt, CompOp.OnInts, hlow] at hsat
    rw [toInt_sub_ofInt (by omega) (by omega)] at h
    simp only [CompOp.OnInts] at h
    omega

/-- Above a bound that is shifted up, or that saturates at the greatest word. -/
theorem RuntimeBound.lt_of_test_up {shift : Int} (h0 : shift ≤ 0) (hfit : i32Min ≤ shift)
    {iv e : Int32} (h : CompOp.sgt.onWords iv ((⟨.sgt, shift, i32Max⟩ : RuntimeBound).value e) = true) :
    e.toInt < iv.toInt + shift := by
  have hiv := toInt_mem iv
  have he := toInt_mem e
  have hsgt : CompOp.sgt.Monotone (-1) := Int.negSucc_lt_zero 0
  have hhigh : (Int32.ofInt (i32Max + shift)).toInt = i32Max + shift :=
    toInt_ofInt (by simp only [i32Min, i32Max] at *; omega) (by omega)
  rw [CompOp.onWords_iff hsgt] at h
  simp only [value] at h
  split at h
  · rw [toInt_ofInt (by decide) (by decide)] at h
    simp only [CompOp.OnInts] at h
    omega
  · rename_i hsat
    simp only [CompOp.onWords_iff hsgt, CompOp.OnInts, hhigh] at hsat
    rw [toInt_sub_ofInt (by omega) (by omega)] at h
    simp only [CompOp.OnInts] at h
    omega

/-- A strict guard only holds where the last lane passes the test without
leaving the word. -/
theorem RuntimeBound.test_value {op : CompOp} {step : Int} {width : Nat} {b : RuntimeBound}
    (hop : op.Monotone step) (hwidth : 2 ≤ width)
    (hfit : i32Min ≤ step * (width - 1) ∧ step * (width - 1) ≤ i32Max)
    (hb : runtimeBound? op (step * (width - 1)) = some b) {iv e : Int32}
    (h : b.op.onWords iv (b.value e) = true) :
    op.OnInts (iv.toInt + step * (width - 1)) e.toInt := by
  have hw : (1 : Int) ≤ width - 1 := by omega
  cases op <;> try exact hop.elim
  case slt =>
    have hstep : 0 < step := hop
    cases hb
    exact lt_of_test_down (by positivity) hfit.2 h
  case sle =>
    have hstep : 0 < step := hop
    have : 1 ≤ step * ((width : Int) - 1) := by nlinarith
    obtain ⟨s, hs, rfl⟩ := Option.map_eq_some_iff.mp hb
    obtain ⟨rfl, hlo, hhi⟩ := fitI32?_eq_some hs
    have := lt_of_test_down (by omega) hhi h
    simp only [CompOp.OnInts]
    omega
  case sgt =>
    have hstep : step < 0 := hop
    cases hb
    exact lt_of_test_up (by nlinarith) hfit.1 h
  case sge =>
    have hstep : step < 0 := hop
    have : step * ((width : Int) - 1) ≤ -1 := by nlinarith
    obtain ⟨s, hs, rfl⟩ := Option.map_eq_some_iff.mp hb
    obtain ⟨rfl, hlo, hhi⟩ := fitI32?_eq_some hs
    have := lt_of_test_up (by omega) hlo h
    simp only [CompOp.OnInts]
    omega

/-- A folded guard only holds where the last lane passes the test without
leaving the word. -/
theorem test_folded {op : CompOp} {step offset : Int} (hop : op.Monotone step) {iv e : Int32}
    {v : Int} (hv : fitI32? (e.toInt - offset) = some v) (h : op.onWords iv (.ofInt v) = true) :
    op.OnInts (iv.toInt + offset) e.toInt := by
  obtain ⟨rfl, hlo, hhi⟩ := fitI32?_eq_some hv
  rw [CompOp.onWords_iff hop, toInt_ofInt hlo hhi] at h
  cases op <;> first | exact hop.elim | (simp only [CompOp.OnInts] at *; omega)

end LoopLanes
