/-
Shares of the two loops.

The main loop takes `width` members of the sequence `a, a + s, a + 2 * s, ...` at a time, as long as the last of
them passes the test; the remaining loop takes what is left one by one.  Of `n` members that pass, the main loop
takes `n / width` groups and `n % width` are left, whichever way the loop counts, and however few there are.

* `runLength_grouped`, `runLength_rest` — the two lengths, from the length of the loop that is split;
* `checkedSplitCounts` — both, computed by operations that refuse to overflow;
* **`splitCounts_eq_divMod`** — quotient and remainder, without an overflow.
-/
import LoopLanes.Proofs.Loop.Lengths

namespace LoopLanes

section Shares

variable {a b k n step width : Int} {op : CompOp}

theorem CompOp.Monotone.mul_pos (hop : op.Monotone step) (hwidth : 0 < width) : op.Monotone (step * width) := by
  cases op <;> try exact hop.elim
  case slt | sle => exact Int.mul_pos hop hwidth
  case sgt | sge => exact Int.mul_neg_of_neg_of_pos hop hwidth

theorem CompOp.Monotone.ne_zero (hop : op.Monotone step) : step ≠ 0 := by
  rintro rfl
  cases op <;> simp [CompOp.Monotone] at hop

/-- To move the bound back is to move the member on. -/
theorem CompOp.onInts_sub_right (op : CompOp) (x y z : Int) : op.OnInts x (y - z) ↔ op.OnInts (x + z) y := by
  cases op <;> simp only [CompOp.OnInts] <;> omega

/-- Numbers with the same numbers below them. -/
theorem eq_of_forall_lt_iff {m n : Int} (hm : 0 ≤ m) (hn : 0 ≤ n) (h : ∀ k, 0 ≤ k → (k < m ↔ k < n)) : m = n := by
  have hleft := h m hm
  have hright := h n hn
  omega

/-- The main loop takes a group while its last member passes. -/
theorem runLength_grouped (hop : op.Monotone step) (hwidth : 0 < width)
    (hpass : ∀ k, 0 ≤ k → (op.OnInts (a + k * step) b ↔ k < n)) (hn : 0 ≤ n)
    (hdist : -i64Max < b - (width - 1) * step - a ∧ b - (width - 1) * step - a < i64Max)
    (hstride : i64Min < step * width) :
    runLength a (b - (width - 1) * step) (step * width) op = some (n / width) := by
  obtain ⟨m, hm⟩ := (hop.mul_pos hwidth).exists_runLength (a := a) (b := b - (width - 1) * step)
  rw [hm]
  refine congrArg some (eq_of_forall_lt_iff (runLength_nonneg hm) (Int.ediv_nonneg hn (Int.le_of_lt hwidth))
    fun k hk => ?_)
  have hlast : a + k * (step * width) + (width - 1) * step = a + (k * width + (width - 1)) * step := by ring
  have hnonneg : 0 ≤ k * width := Int.mul_nonneg hk (Int.le_of_lt hwidth)
  have hquot : k + 1 ≤ n / width ↔ (k + 1) * width ≤ n := Int.le_ediv_iff_mul_le hwidth
  rw [← runLength_iff_of_fits (hop.mul_pos hwidth) hdist hstride hm hk, CompOp.onInts_sub_right, hlast,
    hpass _ (by omega), ← Int.add_one_le_iff, ← Int.add_one_le_iff, hquot, Int.add_mul]
  omega

/-- The remaining loop goes on where the main loop has stopped. -/
theorem runLength_rest (hop : op.Monotone step) (hpass : ∀ k, 0 ≤ k → (op.OnInts (a + k * step) b ↔ k < n))
    (hk : 0 ≤ k) (hle : k ≤ n) (hdist : -i64Max < b - (a + k * step) ∧ b - (a + k * step) < i64Max)
    (hstep : i64Min < step) : runLength (a + k * step) b step op = some (n - k) := by
  obtain ⟨m, hm⟩ := hop.exists_runLength (a := a + k * step) (b := b)
  rw [hm]
  refine congrArg some (eq_of_forall_lt_iff (runLength_nonneg hm) (by omega) fun j hj => ?_)
  have hmember : a + k * step + j * step = a + (k + j) * step := by ring
  rw [← runLength_iff_of_fits hop hdist hstep hm hj, hmember, hpass _ (by omega)]
  omega

/-- A group makes at least a step, and stays in the word by the margin that its steps do. -/
theorem CompOp.Monotone.stride_mem (hop : op.Monotone step) (hwidth : 1 ≤ width)
    (hfit : width * step.natAbs ≤ i64Max - u32Max) :
    width ≤ i64Max - u32Max ∧ (0 < step ∧ step ≤ width * step ∧ width * step ≤ i64Max - u32Max ∨
      step < 0 ∧ width * step ≤ step ∧ -(i64Max - u32Max) ≤ width * step) := by
  rcases Int.lt_or_gt_of_ne hop.ne_zero with hneg | hpos
  · have habs : (step.natAbs : Int) = -step := by omega
    rw [habs] at hfit
    exact ⟨by nlinarith, .inr ⟨hneg, by nlinarith, by rw [Int.mul_neg] at hfit; omega⟩⟩
  · have habs : (step.natAbs : Int) = step := by omega
    rw [habs] at hfit
    exact ⟨by nlinarith, .inl ⟨hpos, by nlinarith, hfit⟩⟩

/-- A member of the sequence up to the first that fails is at most a step behind the bound. -/
theorem offset_of_le_length (hop : op.Monotone step) (hpass : ∀ k, 0 ≤ k → (op.OnInts (a + k * step) b ↔ k < n))
    (hk : 0 ≤ k) (hle : k ≤ n) :
    (0 < step ∧ 0 ≤ k * step ∧ k ≤ k * step ∨ step < 0 ∧ k * step ≤ 0 ∧ k ≤ -(k * step)) ∧
      (k * step = 0 ∨ 0 < step ∧ k * step ≤ b - a + step ∨ step < 0 ∧ b - a + step ≤ k * step) := by
  rcases hk.eq_or_lt with rfl | hpos
  · have := hop.ne_zero
    rw [Int.zero_mul]
    omega
  · have hbefore := (hpass (k - 1) (by omega)).mpr (by omega)
    rw [Int.sub_mul, Int.one_mul] at hbefore
    cases op <;> try exact hop.elim
    case slt | sle =>
      have hstep : 0 < step := hop
      simp only [CompOp.OnInts] at hbefore
      have : k ≤ k * step := by nlinarith
      omega
    case sgt | sge =>
      have hstep : step < 0 := hop
      simp only [CompOp.OnInts] at hbefore
      have : k ≤ -(k * step) := by nlinarith
      omega

/-- What whole groups take of the iterations, and what they leave. -/
theorem groups_mem (hn : 0 ≤ n) (hwidth : 1 ≤ width) :
    0 ≤ n / width * width ∧ n / width * width ≤ n ∧ n - n / width * width = n % width := by
  have hquot : 0 ≤ n / width := Int.ediv_nonneg hn (by omega)
  have hrest := Int.emod_nonneg n (show width ≠ 0 by omega)
  have hsum := Int.mul_ediv_add_emod n width
  rw [Int.mul_comm] at hsum
  exact ⟨Int.mul_nonneg hquot (by omega), by omega, by omega⟩

end Shares

/-! ### Both loops -/

/-- Rounds of the main loop and of the remaining one; nothing where an operation on the way overflows. -/
def checkedSplitCounts (start bound step : Int) (op : CompOp) (width : Int) : Option (Option (Int × Int)) := do
  let others ← fitI64? (width - 1)
  let reach ← fitI64? (others * step)
  let mainBound ← fitI64? (bound - reach)
  let stride ← fitI64? (step * width)
  match ← checkedRunLength start mainBound stride op with
  | none => return none
  | some main =>
    let taken ← fitI64? (main * width)
    let advance ← fitI64? (taken * step)
    let next ← fitI64? (start + advance)
    match ← checkedRunLength next bound step op with
    | none => return none
    | some rest => return some (main, rest)

/-- Of the iterations of a loop, the main loop takes all whole groups and the remaining loop what is left; no
operation overflows where the steps of a group stay in the word by a margin of 32 bits, as they do for every step
of 32 bits and every width below `2 ^ 31`. -/
theorem splitCounts_eq_divMod (a b : Int32) {step width : Int} {op : CompOp} (hop : op.Monotone step)
    (hwidth : 1 ≤ width) (hfit : width * step.natAbs ≤ i64Max - u32Max) :
    ∃ n, runLength a.toInt b.toInt step op = some n ∧
      splitCounts a.toInt b.toInt step op width = some (n / width, n % width) ∧
      checkedSplitCounts a.toInt b.toInt step op width = some (some (n / width, n % width)) := by
  have ha := toInt_mem a
  have hb := toInt_mem b
  generalize a.toInt = a at *
  generalize b.toInt = b at *
  obtain ⟨hlanes, hstride⟩ := hop.stride_mem hwidth hfit
  simp only [i32Min, i32Max, u32Max, i64Max] at ha hb hlanes hstride
  have hfits : ∀ x : Int, -9223372036854775807 ≤ x → x ≤ 9223372036854775807 →
      fitI64? x = some x ∧ wrapI64 x = x := fits_of_within
  have hgroup : (width - 1) * step = width * step - step := by ring
  have hcomm : step * width = width * step := Int.mul_comm ..
  obtain ⟨n, hn⟩ := hop.exists_runLength (a := a) (b := b)
  have hpass : ∀ k, 0 ≤ k → (op.OnInts (a + k * step) b ↔ k < n) := fun k hk =>
    runLength_iff_of_fits hop (by simp only [i64Max]; omega) (by simp only [i64Min]; omega) hn hk
  -- what the main loop takes, and where it stops
  have hnonneg := runLength_nonneg hn
  obtain ⟨htaken, hle, hrest⟩ := groups_mem hnonneg hwidth
  obtain ⟨hside, hnear⟩ := offset_of_le_length hop hpass htaken hle
  have hmainDist : -i64Max < b - (width - 1) * step - a ∧ b - (width - 1) * step - a < i64Max := by
    simp only [i64Max]
    omega
  have hrestDist : -i64Max < b - (a + n / width * width * step) ∧ b - (a + n / width * width * step) < i64Max := by
    simp only [i64Max]
    omega
  have hstepMin : i64Min < step := by
    simp only [i64Min]
    omega
  have hstrideMin : i64Min < step * width := by
    simp only [i64Min]
    omega
  have hmain := runLength_grouped hop (by omega) hpass hnonneg hmainDist hstrideMin
  have hleft := hrest ▸ runLength_rest hop hpass htaken hle hrestDist hstepMin
  have hreach := hfits ((width - 1) * step) (by omega) (by omega)
  have hbound := hfits (b - (width - 1) * step) (by omega) (by omega)
  have hstrideFit := hfits (step * width) (by omega) (by omega)
  have hadvance := hfits (n / width * width * step) (by omega) (by omega)
  have hnext := hfits (a + n / width * width * step) (by omega) (by omega)
  refine ⟨n, hn, ?_, ?_⟩
  · simp only [splitCounts, hbound.2, hstrideFit.2, hmain, hnext.2, hleft, Option.bind_eq_bind, Option.bind_some]
    rfl
  · simp only [checkedSplitCounts, (hfits (width - 1) (by omega) (by omega)).1, hreach.1, hbound.1, hstrideFit.1,
      checkedRunLength_eq hmainDist hstrideMin, hmain, (hfits (n / width * width) (by omega) (by omega)).1,
      hadvance.1, hnext.1, checkedRunLength_eq hrestDist hstepMin, hleft, Option.bind_eq_bind, Option.bind_some]
    rfl

/-- All words, downwards and in the largest groups: the main loop takes two of them, and two iterations remain. -/
theorem splitCounts_eq_divMod_across :
    splitCounts 2147483647 (-2147483648) (-1) .sge 2147483647 = some (2, 2) ∧
      checkedSplitCounts 2147483647 (-2147483648) (-1) .sge 2147483647 = some (some (2, 2)) := by
  have hlength : runLength 2147483647 (-2147483648) (-1) .sge = some 4294967296 := by decide
  obtain ⟨n, hn, hsplit, hchecked⟩ := splitCounts_eq_divMod 2147483647 (-2147483648)
    (show CompOp.sge.Monotone (-1) from Int.negSucc_lt_zero 0) (show (1 : Int) ≤ 2147483647 by decide) (by decide)
  obtain rfl := Option.some.inj (hlength.symm.trans hn)
  exact ⟨hsplit, hchecked⟩

end LoopLanes
