/-
Words of 32 bits and the integers they stand for.
-/
import Mathlib.Algebra.Ring.Int.Defs
import Mathlib.Data.Nat.Cast.Basic
import LoopLanes.Basic.Word

namespace LoopLanes

theorem toInt_mem (a : Int32) : i32Min ≤ a.toInt ∧ a.toInt ≤ i32Max := by
  have := a.le_toInt
  have := a.toInt_lt
  simp only [i32Min, i32Max]
  omega

theorem toInt_ofInt {n : Int} (lo : i32Min ≤ n) (hi : n ≤ i32Max) : (Int32.ofInt n).toInt = n := by
  simp only [i32Min] at lo
  simp only [i32Max] at hi
  exact Int32.toInt_ofInt_of_le (by omega) (by omega)

/-- A sum that fits the word is the sum. -/
theorem toInt_add_ofInt {a : Int32} {n : Int} (lo : i32Min ≤ a.toInt + n)
    (hi : a.toInt + n ≤ i32Max) : (a + .ofInt n).toInt = a.toInt + n := by
  have h : a + .ofInt n = .ofInt (a.toInt + n) := by rw [Int32.ofInt_add, Int32.ofInt_toInt]
  rw [h, toInt_ofInt lo hi]

/-- A difference that fits the word is the difference. -/
theorem toInt_sub_ofInt {a : Int32} {n : Int} (lo : i32Min ≤ a.toInt - n)
    (hi : a.toInt - n ≤ i32Max) : (a - .ofInt n).toInt = a.toInt - n := by
  have h : a - .ofInt n = a + .ofInt (-n) := by rw [Int32.ofInt_neg, Int32.sub_eq_add_neg]
  rw [h, toInt_add_ofInt (by omega) (by omega), Int.sub_eq_add_neg]

theorem fitI32?_eq_some {n m : Int} (h : fitI32? n = some m) : m = n ∧ i32Min ≤ n ∧ n ≤ i32Max := by
  unfold fitI32? at h
  split at h
  · cases h
    exact ⟨rfl, ‹_›⟩
  · cases h

/-- The value itself when it fits a signed 64-bit word: the outcome of an operation that refuses to
overflow. -/
def fitI64? (x : Int) : Option Int := if i64Min ≤ x ∧ x ≤ i64Max then some x else none

/-- Away from the least word, an operation neither overflows nor wraps around. -/
theorem fits_of_within (x : Int) (lo : -i64Max ≤ x) (hi : x ≤ i64Max) : fitI64? x = some x ∧ wrapI64 x = x := by
  have hmin : i64Min ≤ x := by
    simp only [i64Min, i64Max] at *
    omega
  exact ⟨if_pos ⟨hmin, hi⟩, wrapI64_of_mem hmin hi⟩

theorem wrapI64_wrapI64 (x : Int) : wrapI64 (wrapI64 x) = wrapI64 x := Int.bmod_bmod

/-- Two numbers leave the same word where they are whole turns apart. -/
theorem wrapI64_eq_iff {x y : Int} :
    wrapI64 x = wrapI64 y ↔ (18446744073709551616 : Int) ∣ x - y := by
  unfold wrapI64
  rw [Int.bmod_eq_bmod_iff_bmod_sub_eq_zero, ← Int.dvd_iff_bmod_eq_zero]
  rfl

theorem wrapI64_toInt (w : Int32) : wrapI64 w.toInt = w.toInt := by
  have := toInt_mem w
  simp only [i32Min, i32Max] at this
  refine wrapI64_of_mem ?_ ?_ <;> simp only [i64Min, i64Max] <;> omega

/-- A shift to the left by less than 31 places is a product. -/
theorem shiftLeft_eq_mul (x c : Int32) (h0 : 0 ≤ c.toInt) (h1 : c.toInt < 31) :
    x <<< c = x * .ofInt (2 ^ c.toInt.toNat) := by
  have hmod : c.toBitVec.smod 32 = BitVec.ofNat 32 c.toInt.toNat := by
    refine BitVec.eq_of_toInt_eq ?_
    rw [BitVec.toInt_smod, show (32 : BitVec 32).toInt = 32 from rfl, Int32.toInt_toBitVec,
      Int.fmod_eq_of_lt h0 (by omega), BitVec.toInt_eq_toNat_of_lt]
    · rw [BitVec.toNat_ofNat, Nat.mod_eq_of_lt (by omega)]
      omega
    · rw [BitVec.toNat_ofNat, Nat.mod_eq_of_lt (by omega)]
      omega
  have hpow : (Int32.ofInt (2 ^ c.toInt.toNat)).toBitVec = BitVec.twoPow 32 c.toInt.toNat := by
    rw [Int32.toBitVec_ofInt]
    refine BitVec.eq_of_toNat_eq ?_
    rw [BitVec.toNat_twoPow, BitVec.toNat_ofInt]
    norm_cast
  refine Int32.toBitVec_inj.mp ?_
  rw [Int32.toBitVec_shiftLeft, Int32.toBitVec_mul, hmod, hpow, ← BitVec.shiftLeft_eq_mul_twoPow,
    BitVec.shiftLeft_eq', BitVec.toNat_ofNat, Nat.mod_eq_of_lt (by omega)]

end LoopLanes
