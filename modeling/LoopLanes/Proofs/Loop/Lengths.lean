/-
Lengths of runs.

`runLength a b s op` counts the leading members of `a, a + s, a + 2 * s, ...` that pass a test.  For an order
that the sequence runs into this is a quotient, rounded up or down; where the sequence runs away from the bound
the first member decides; an inequality holds until the sequence meets the bound, if it ever does.

* `runLength_iff_of_fits` — which members pass an order that the sequence runs into;
* `CompOp.Lasts` — a length, said of the sequence itself;
* `checkedRunLength` — the length computed by operations that refuse to overflow;
* **`runLength_isLeast`** — for words of 32 bits the length is the place of the first member that fails, there is
  no length where none fails, and no operation on the way overflows.
-/
import Mathlib.Order.Bounds.Defs
import LoopLanes.Proofs.Split.Counting

namespace LoopLanes

section RunLength

variable {a b k n step : Int} {op : CompOp} {r : Option Int}

/-! ### Orders that the sequence runs into -/

/-- A quotient rounded up is the first one that is large enough. -/
theorem lt_ceilDiv_iff (hb : 0 < b) : k < ceilDiv a b ↔ k * b < a := by
  have hdiv : b * a.tdiv b + a.tmod b = a := Int.mul_tdiv_add_tmod a b
  have hlt : a.tmod b < b := Int.tmod_lt_of_pos a hb
  have hbounds : (ceilDiv a b - 1) * b < a ∧ a ≤ ceilDiv a b * b := by
    unfold ceilDiv
    rcases Int.lt_or_le a 0 with ha | ha
    · have hneg : a.tmod b ≤ 0 := by
        have h := Int.tmod_nonneg b (show 0 ≤ -a by omega)
        rw [Int.neg_tmod] at h
        omega
      have hgt : -b < a.tmod b := by
        have h := Int.tmod_lt_of_pos (-a) hb
        rw [Int.neg_tmod] at h
        omega
      have hq : ¬(a.tmod b ≠ 0 ∧ (a < 0 ↔ b < 0)) := by omega
      rw [if_neg hq]
      constructor <;> nlinarith
    · have hnonneg : 0 ≤ a.tmod b := Int.tmod_nonneg b ha
      split
      · have hpos : 0 < a.tmod b := by omega
        constructor <;> nlinarith
      · have hzero : a.tmod b = 0 := by omega
        constructor <;> nlinarith
  constructor
  · intro h
    nlinarith [hbounds.1]
  · intro h
    by_contra hle
    nlinarith [hbounds.2]

theorem runLength_nonneg (h : runLength a b step op = some n) : 0 ≤ n := by
  unfold runLength at h
  grind

theorem CompOp.Monotone.exists_runLength (hop : op.Monotone step) : ∃ n, runLength a b step op = some n := by
  cases op <;> try exact hop.elim
  case slt | sle =>
    have hpos : 0 < step := hop
    simp only [runLength, if_pos hpos]
    exact ⟨_, rfl⟩
  case sgt | sge =>
    have hneg : step < 0 := hop
    simp only [runLength, if_pos hneg]
    exact ⟨_, rfl⟩

/-- The length of a run counts the members of the sequence that pass the test, if the first one and the bound
are no further apart than words allow. -/
theorem runLength_iff_of_fits (hop : op.Monotone step) (hdist : -i64Max < b - a ∧ b - a < i64Max)
    (hstep : i64Min < step) (h : runLength a b step op = some n) (hk : 0 ≤ k) :
    op.OnInts (a + k * step) b ↔ k < n := by
  simp only [i64Min, i64Max] at hdist hstep
  have hwrap : ∀ x : Int, -9223372036854775807 ≤ x → x ≤ 9223372036854775807 → wrapI64 x = x :=
    fun _ lo hi => (fits_of_within _ lo hi).2
  cases op <;> try exact hop.elim
  case slt =>
    have hpos : 0 < step := hop
    simp only [runLength, if_pos hpos, Option.some.injEq] at h
    rw [hwrap (b - a) (by omega) (by omega)] at h
    have hceil : k < ceilDiv (b - a) step ↔ k * step < b - a := lt_ceilDiv_iff hpos
    simp only [CompOp.OnInts]
    omega
  case sle =>
    have hpos : 0 < step := hop
    simp only [runLength, if_pos hpos, Option.some.injEq] at h
    have hquot : k ≤ (b - a) / step ↔ k * step ≤ b - a := Int.le_ediv_iff_mul_le hpos
    have hsize := Int.natAbs_ediv_le_natAbs (b - a) step
    rw [hwrap (b - a) (by omega) (by omega), hwrap _ (by omega) (by omega)] at h
    simp only [CompOp.OnInts]
    omega
  case sgt =>
    have hneg : step < 0 := hop
    simp only [runLength, if_pos hneg, Option.some.injEq] at h
    rw [hwrap (a - b) (by omega) (by omega), hwrap (-step) (by omega) (by omega)] at h
    have hceil : k < ceilDiv (a - b) (-step) ↔ k * -step < a - b := lt_ceilDiv_iff (by omega)
    rw [Int.mul_neg] at hceil
    simp only [CompOp.OnInts]
    omega
  case sge =>
    have hneg : step < 0 := hop
    simp only [runLength, if_pos hneg, Option.some.injEq] at h
    have hquot : k ≤ (a - b) / -step ↔ k * -step ≤ a - b := Int.le_ediv_iff_mul_le (by omega)
    rw [Int.mul_neg] at hquot
    have hsize := Int.natAbs_ediv_le_natAbs (a - b) (-step)
    rw [hwrap (a - b) (by omega) (by omega), hwrap (-step) (by omega) (by omega),
      hwrap _ (by omega) (by omega)] at h
    simp only [CompOp.OnInts]
    omega

/-- Bounds of 32 bits are near enough; the first member may be a step away from a word. -/
theorem runLength_iff_of_near (hop : op.Monotone step) (ha : 2 * i32Min ≤ a ∧ a ≤ 2 * i32Max)
    (hb : i32Min ≤ b ∧ b ≤ i32Max) (hstep : -4294967296 ≤ step) (h : runLength a b step op = some n)
    (hk : 0 ≤ k) : op.OnInts (a + k * step) b ↔ k < n := by
  simp only [i32Min, i32Max] at ha hb
  refine runLength_iff_of_fits hop ?_ ?_ h hk
  · simp only [i64Max]
    omega
  · simp only [i64Min]
    omega

theorem runLength_iff (hop : op.Monotone step) (ha : i32Min ≤ a ∧ a ≤ i32Max)
    (hb : i32Min ≤ b ∧ b ≤ i32Max) (hstep : -4294967296 ≤ step) (h : runLength a b step op = some n)
    (hk : 0 ≤ k) : op.OnInts (a + k * step) b ↔ k < n := by
  refine runLength_iff_of_near hop ?_ hb hstep h hk
  simp only [i32Min, i32Max] at ha ⊢
  omega

/-! ### All tests -/

/-- An order or an inequality holds of two integers. -/
def CompOp.HoldsOf (op : CompOp) (a b : Int) : Prop := op.OnInts a b ∨ op = .ne ∧ a ≠ b

theorem CompOp.Monotone.holdsOf_iff (hop : op.Monotone step) : op.HoldsOf a b ↔ op.OnInts a b := by
  refine or_iff_left fun h => ?_
  obtain ⟨rfl, -⟩ := h
  exact hop

/-- The sequence passes the test for so many members and then fails, or it always passes. -/
def CompOp.Lasts (op : CompOp) (a b step : Int) : Option Int → Prop
  | some n => 0 ≤ n ∧ ¬ op.HoldsOf (a + n * step) b ∧ ∀ k, 0 ≤ k → k < n → op.HoldsOf (a + k * step) b
  | none => ∀ k, 0 ≤ k → op.HoldsOf (a + k * step) b

namespace CompOp.Lasts

theorem eq_some_iff (h : op.Lasts a b step r) :
    r = some n ↔ IsLeast {k : Int | 0 ≤ k ∧ ¬ op.HoldsOf (a + k * step) b} n := by
  constructor
  · rintro rfl
    obtain ⟨hn, hfails, hpass⟩ := h
    exact ⟨⟨hn, hfails⟩, fun k hk => Int.not_lt.mp fun hlt => hk.2 (hpass k hk.1 hlt)⟩
  · rintro ⟨⟨hn, hfails⟩, hleast⟩
    cases r with
    | none => exact absurd (h n hn) hfails
    | some m =>
      obtain ⟨hm, hlast, hpass⟩ := h
      refine congrArg some (Int.le_antisymm (Int.not_lt.mp fun hlt => hfails (hpass n hn hlt)) ?_)
      exact hleast ⟨hm, hlast⟩

theorem eq_none_iff (h : op.Lasts a b step r) :
    r = none ↔ ∀ k : Int, 0 ≤ k → op.HoldsOf (a + k * step) b := by
  constructor
  · rintro rfl
    exact h
  · intro hall
    cases r with
    | none => rfl
    | some m => exact absurd (hall m h.1) h.2.1

end CompOp.Lasts

theorem lasts_of_monotone (hop : op.Monotone step) (hdist : -i64Max < b - a ∧ b - a < i64Max)
    (hstep : i64Min < step) : op.Lasts a b step (runLength a b step op) := by
  obtain ⟨n, h⟩ := hop.exists_runLength (a := a) (b := b)
  have hiff : ∀ k : Int, 0 ≤ k → (op.HoldsOf (a + k * step) b ↔ k < n) := fun k hk =>
    hop.holdsOf_iff.trans (runLength_iff_of_fits hop hdist hstep h hk)
  have hn := runLength_nonneg h
  rw [h]
  exact ⟨hn, fun hholds => Int.lt_irrefl n ((hiff n hn).mp hholds), fun k hk => (hiff k hk).mpr⟩

/-- Where the sequence runs away from the bound or stays where it is, all members pass if the first one does. -/
theorem lasts_of_away (hop : op = .slt ∨ op = .sle ∨ op = .sgt ∨ op = .sge) (haway : ¬ op.Monotone step) :
    op.Lasts a b step (runLength a b step op) := by
  have hfirst : a + 0 * step = a := by rw [Int.zero_mul, Int.add_zero]
  rcases hop with rfl | rfl | rfl | rfl
  case inl | inr.inl =>
    have hstep : ¬ 0 < step := haway
    have hle : ∀ k : Int, 0 ≤ k → k * step ≤ 0 := fun k hk =>
      Int.mul_nonpos_of_nonneg_of_nonpos hk (Int.not_lt.mp hstep)
    simp only [runLength, if_neg hstep]
    split <;> rename_i hpass
    · intro k hk
      have := hle k hk
      simp only [CompOp.HoldsOf, CompOp.OnInts]
      omega
    · exact ⟨Int.le_refl 0, by simpa [CompOp.HoldsOf, CompOp.OnInts, hfirst] using hpass, fun k => by omega⟩
  case inr.inr.inl | inr.inr.inr =>
    have hstep : ¬ step < 0 := haway
    have hle : ∀ k : Int, 0 ≤ k → 0 ≤ k * step := fun k hk => Int.mul_nonneg hk (Int.not_lt.mp hstep)
    simp only [runLength, if_neg hstep]
    split <;> rename_i hpass
    · intro k hk
      have := hle k hk
      simp only [CompOp.HoldsOf, CompOp.OnInts]
      omega
    · exact ⟨Int.le_refl 0, by simpa [CompOp.HoldsOf, CompOp.OnInts, hfirst] using hpass, fun k => by omega⟩

/-- An inequality holds until the bound is met: after a number of steps that is a quotient without remainder. -/
theorem lasts_ne (hdist : -i64Max < b - a ∧ b - a < i64Max) (hstep : step ≠ 0) :
    CompOp.ne.Lasts a b step (runLength a b step .ne) := by
  have hholds : ∀ k : Int, CompOp.ne.HoldsOf (a + k * step) b ↔ k * step ≠ b - a := fun k => by
    simp only [CompOp.HoldsOf, CompOp.OnInts, false_or, true_and]
    omega
  have hwrap : wrapI64 (b - a) = b - a := wrapI64_of_mem
    (by simp only [i64Min, i64Max] at *; omega) (by omega)
  simp only [runLength, hwrap]
  split <;> rename_i hmeets
  · intro k hk
    refine (hholds k).mpr fun hk' => ?_
    rw [← hk', Int.mul_tmod_left, Int.mul_tdiv_cancel k hstep] at hmeets
    omega
  · have hexact : (b - a).tdiv step * step = b - a := by
      have := Int.mul_tdiv_add_tmod (b - a) step
      rw [Int.mul_comm]
      omega
    refine ⟨by omega, fun h => (hholds _).mp h hexact, fun k hk hlt => (hholds k).mpr fun hk' => ?_⟩
    rw [← hexact] at hk'
    exact Int.ne_of_lt hlt (Int.eq_of_mul_eq_mul_right hstep hk')

/-! ### Operations that refuse to overflow -/

/-- The quotient rounded up; division and remainder overflow together. -/
def checkedCeilDiv (a b : Int) : Option Int := do
  let q ← fitI64? (a.tdiv b)
  if a.tmod b ≠ 0 ∧ (a < 0 ↔ b < 0) then fitI64? (q + 1) else return q

/-- The length of a run; nothing where an operation on the way overflows. -/
def checkedRunLength (start bound step : Int) (op : CompOp) : Option (Option Int) :=
  match op with
  | .slt =>
    if 0 < step then do
      let dist ← fitI64? (bound - start)
      let n ← checkedCeilDiv dist step
      return some (max n 0)
    else return if start < bound then none else some 0
  | .sle =>
    if 0 < step then do
      let dist ← fitI64? (bound - start)
      let q ← fitI64? (dist / step)
      let n ← fitI64? (q + 1)
      return some (max n 0)
    else return if start ≤ bound then none else some 0
  | .sgt =>
    if step < 0 then do
      let dist ← fitI64? (start - bound)
      let down ← fitI64? (-step)
      let n ← checkedCeilDiv dist down
      return some (max n 0)
    else return if bound < start then none else some 0
  | .sge =>
    if step < 0 then do
      let dist ← fitI64? (start - bound)
      let down ← fitI64? (-step)
      let q ← fitI64? (dist / down)
      let n ← fitI64? (q + 1)
      return some (max n 0)
    else return if bound ≤ start then none else some 0
  | .ne => do
    let dist ← fitI64? (bound - start)
    let q ← fitI64? (dist.tdiv step)
    return if dist.tmod step ≠ 0 ∨ q < 0 then none else some q
  | _ => return none

theorem checkedCeilDiv_eq (hb : 0 < b) (ha : -i64Max < a ∧ a < i64Max) :
    checkedCeilDiv a b = some (ceilDiv a b) := by
  have hsize := Int.natAbs_tdiv_le_natAbs a b
  simp only [i64Max] at ha
  have hfit : ∀ x : Int, -9223372036854775807 ≤ x → x ≤ 9223372036854775807 → fitI64? x = some x :=
    fun _ lo hi => (fits_of_within _ lo hi).1
  simp only [checkedCeilDiv, ceilDiv, hfit (a.tdiv b) (by omega) (by omega), Option.bind_eq_bind,
    Option.bind_some]
  split
  · exact hfit _ (by omega) (by omega)
  · rfl

/-- No operation overflows if start and bound are no further apart than words allow. -/
theorem checkedRunLength_eq (hdist : -i64Max < b - a ∧ b - a < i64Max) (hstep : i64Min < step) :
    checkedRunLength a b step op = some (runLength a b step op) := by
  have hneg : -i64Max < a - b ∧ a - b < i64Max := by omega
  have hup := Int.natAbs_ediv_le_natAbs (b - a) step
  have hdown := Int.natAbs_ediv_le_natAbs (a - b) (-step)
  have hmeets := Int.natAbs_tdiv_le_natAbs (b - a) step
  simp only [i64Min] at hstep
  have hba := fits_of_within (b - a) (by omega) (by omega)
  have hab := fits_of_within (a - b) (by omega) (by omega)
  cases op <;> simp only [checkedRunLength, runLength, hba, hab, Option.bind_eq_bind, Option.bind_some]
  case slt =>
    split
    · rename_i hpos
      rw [checkedCeilDiv_eq hpos hdist, Option.bind_some]
      rfl
    · rfl
  case sle =>
    split
    · have hquot := fits_of_within ((b - a) / step) (by omega) (by omega)
      have hnext := fits_of_within ((b - a) / step + 1) (by omega) (by omega)
      rw [hquot.1, Option.bind_some, hnext.1, Option.bind_some, hnext.2]
      rfl
    · rfl
  case sgt =>
    split
    · rename_i hstep'
      have hdown' := fits_of_within (-step) (by simp only [i64Max]; omega) (by simp only [i64Max]; omega)
      rw [hdown'.1, Option.bind_some, hdown'.2, checkedCeilDiv_eq (by omega) hneg, Option.bind_some]
      rfl
    · rfl
  case sge =>
    split
    · rename_i hstep'
      have hdown' := fits_of_within (-step) (by simp only [i64Max]; omega) (by simp only [i64Max]; omega)
      have hquot := fits_of_within ((a - b) / -step) (by omega) (by omega)
      have hnext := fits_of_within ((a - b) / -step + 1) (by omega) (by omega)
      rw [hdown'.1, Option.bind_some, hquot.1, Option.bind_some, hnext.1, Option.bind_some, hdown'.2, hnext.2]
      rfl
    · rfl
  case ne =>
    have hquot := fits_of_within ((b - a).tdiv step) (by omega) (by omega)
    rw [hquot.1, Option.bind_some]
    rfl
  all_goals rfl

end RunLength

/-! ### Words of 32 bits -/

/-- Of words, the length is the place of the first member of the sequence that fails the test; there is none
just where all pass; and it is computed without an overflow. -/
theorem runLength_isLeast (a b step : Int32) (op : CompOp) (hop : op ∈ [CompOp.slt, .sle, .sgt, .sge, .ne])
    (hne : op = .ne → step ≠ 0) :
    (∀ n, runLength a.toInt b.toInt step.toInt op = some n ↔
      IsLeast {k : Int | 0 ≤ k ∧ ¬ op.HoldsOf (a.toInt + k * step.toInt) b.toInt} n) ∧
    (runLength a.toInt b.toInt step.toInt op = none ↔
      ∀ k : Int, 0 ≤ k → op.HoldsOf (a.toInt + k * step.toInt) b.toInt) ∧
    checkedRunLength a.toInt b.toInt step.toInt op = some (runLength a.toInt b.toInt step.toInt op) := by
  have ha := toInt_mem a
  have hb := toInt_mem b
  have hs := toInt_mem step
  have hdist : -i64Max < b.toInt - a.toInt ∧ b.toInt - a.toInt < i64Max := by
    simp only [i32Min, i32Max, i64Max] at *
    omega
  have hstep : i64Min < step.toInt := by
    simp only [i32Min, i64Min] at *
    omega
  have hlasts : op.Lasts a.toInt b.toInt step.toInt (runLength a.toInt b.toInt step.toInt op) := by
    by_cases hmonotone : op.Monotone step.toInt
    · exact lasts_of_monotone hmonotone hdist hstep
    · by_cases he : op = .ne
      · subst he
        exact lasts_ne hdist fun hzero => hne rfl (Int32.toInt_inj.mp hzero)
      · refine lasts_of_away ?_ hmonotone
        simpa [he, or_assoc] using hop
  exact ⟨fun _ => hlasts.eq_some_iff, hlasts.eq_none_iff, checkedRunLength_eq hdist hstep⟩

/-- From the least word to the largest one, in steps that meet it. -/
theorem runLength_isLeast_across : runLength (-2147483648) 2147483647 16711935 .ne = some 257 ∧
    IsLeast {k : Int | 0 ≤ k ∧ ¬ CompOp.ne.HoldsOf (-2147483648 + k * 16711935) 2147483647} 257 ∧
    checkedRunLength (-2147483648) 2147483647 16711935 .ne = some (some 257) := by
  have h := runLength_isLeast (-2147483648) 2147483647 16711935 .ne (by decide) (by decide)
  have hlength : runLength (-2147483648) 2147483647 16711935 .ne = some 257 := by decide
  exact ⟨hlength, (h.1 257).mp hlength, h.2.2.trans (congrArg some hlength)⟩

end LoopLanes
