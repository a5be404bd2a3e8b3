/-
Integers written in decimal and read back.

* `toString_nat_injective` — a natural number is known from its digits;
* `readInteger_toString`, `mem_of_readInteger` — an integer of the range is read as written, and no
  other is read;
* `Label.blockId?_ofBlock` — a label stands for the block that carries it.
-/
import LoopLanes.Ir.Label
import LoopLanes.Proofs.Basic.Success

namespace LoopLanes

theorem toString_nat_injective {m n : Nat} (h : toString m = toString n) : m = n := by
  have hdigits : Nat.toDigits 10 m = Nat.toDigits 10 n := by
    rw [← Nat.toList_repr, ← Nat.toList_repr, ← Nat.toString_eq_repr, ← Nat.toString_eq_repr, h]
  rw [← Nat.ofDigitChars_ten_toDigits (n := m), hdigits, Nat.ofDigitChars_ten_toDigits]

theorem digitValue?_digitChar {d : Nat} (h : d < 10) : digitValue? d.digitChar = some d := by
  have : ∀ d < 10, digitValue? (Nat.digitChar d) = some d := by decide
  exact this d h

/-- Digits are read as the number they write, if it is in range. -/
theorem readDigits_toDigits {bound : Nat} {passed : IntegerError} : ∀ (n : Nat) (cs : List Char),
    n ≤ bound →
      readDigits bound passed 0 (Nat.toDigits 10 n ++ cs) = readDigits bound passed n cs := by
  intro n
  induction n using Nat.strongRecOn with
  | ind n ih =>
    intro cs hn
    by_cases hlt : n < 10
    · rw [Nat.toDigits_of_lt_base hlt]
      simp [readDigits, digitValue?_digitChar hlt, hn]
    · have hd : n % 10 < 10 := Nat.mod_lt _ (by omega)
      rw [Nat.toDigits_of_base_le (by omega) (by omega), List.append_assoc,
        ih (n / 10) (by omega) _ (by omega)]
      have hval : 10 * (n / 10) + n % 10 = n := by omega
      simp [readDigits, digitValue?_digitChar hd, hval, hn]

/-- Digits without a sign are read as a natural number. -/
theorem readInteger_toDigits {lo hi : Int} {n : Nat} (h : (n : Int) ≤ hi) :
    readInteger lo hi (Nat.toDigits 10 n) = .ok n := by
  have hread : readDigits hi.toNat .tooLarge 0 (Nat.toDigits 10 n) = .ok n := by
    have := @readDigits_toDigits hi.toNat .tooLarge n [] (by omega)
    simpa [readDigits] using this
  have hdigit : ∀ c ∈ Nat.toDigits 10 n, c.isDigit = true :=
    fun c hc => Nat.isDigit_of_mem_toDigits (by omega) (by omega) hc
  have hne := Nat.toDigits_ne_nil (n := n) (b := 10)
  generalize Nat.toDigits 10 n = ds at *
  cases ds with
  | nil => exact absurd rfl hne
  | cons c cs =>
    have hc := hdigit c (by simp)
    unfold readInteger
    split <;> simp_all [Except.map]

/-- An integer of the range is read as it is written. -/
theorem readInteger_toString {lo hi x : Int} (h0 : lo ≤ 0) (hlo : lo ≤ x) (hhi : x ≤ hi) :
    readInteger lo hi (toString x).toList = .ok x := by
  rw [Int.toString_eq_repr, Int.repr_eq_if]
  split
  · rw [Nat.toList_repr, readInteger_toDigits (by omega)]
    congr 1
    omega
  · have hread : readDigits (-lo).toNat .tooSmall 0 (Nat.toDigits 10 (-x).toNat) =
        .ok (-x).toNat := by
      have := @readDigits_toDigits (-lo).toNat .tooSmall (-x).toNat [] (by omega)
      simpa [readDigits] using this
    have hne := Nat.toDigits_ne_nil (n := (-x).toNat) (b := 10)
    rw [String.toList_append, Nat.toList_repr]
    show readInteger lo hi ('-' :: Nat.toDigits 10 (-x).toNat) = _
    generalize Nat.toDigits 10 (-x).toNat = ds at *
    have hlo0 : lo < 0 := by omega
    cases ds with
    | nil => exact absurd rfl hne
    | cons c cs =>
      simp only [readInteger, hlo0, if_true, hread, Except.map]
      show Except.ok (-((-x).toNat : Int)) = _
      rw [show (-((-x).toNat : Int)) = x by omega]

theorem readDigits_le {bound : Nat} {passed : IntegerError} : ∀ {cs : List Char} {acc n : Nat},
    acc ≤ bound → readDigits bound passed acc cs = .ok n → n ≤ bound := by
  intro cs
  induction cs with
  | nil =>
    intro acc n hacc h
    cases h
    exact hacc
  | cons c cs ih =>
    intro acc n hacc h
    rw [readDigits] at h
    split at h
    · cases h
    · split at h
      · exact ih ‹_› h
      · cases h

/-- What is read lies in the range. -/
theorem mem_of_readInteger {lo hi x : Int} (hlo : lo ≤ 0) (hhi : 0 ≤ hi) {cs : List Char}
    (h : readInteger lo hi cs = .ok x) : lo ≤ x ∧ x ≤ hi := by
  have hunsigned {ds : List Char} (h : (readDigits hi.toNat .tooLarge 0 ds).map Int.ofNat = .ok x) :
      lo ≤ x ∧ x ≤ hi := by
    obtain ⟨n, hn, rfl⟩ := map_eq_ok.mp h
    have hle := readDigits_le (Nat.zero_le _) hn
    change lo ≤ (n : Int) ∧ (n : Int) ≤ hi
    exact ⟨by omega, by omega⟩
  unfold readInteger at h
  split at h
  · cases h
  · cases h
  · cases h
  · exact hunsigned h
  · split at h
    · obtain ⟨_, hm, rfl⟩ := map_eq_ok.mp h
      obtain ⟨n, hn, hcast⟩ := bind_eq_ok.mp hm
      cases hcast
      have hle := readDigits_le (Nat.zero_le _) hn
      exact ⟨by omega, by omega⟩
    · cases h
  · exact hunsigned h

/-- Without a minus sign, what is read is not negative. -/
theorem nonneg_of_readInteger {lo hi x : Int} {cs : List Char} (hcs : '-' ∉ cs)
    (h : readInteger lo hi cs = .ok x) : 0 ≤ x := by
  unfold readInteger at h
  split at h
  · cases h
  · cases h
  · cases h
  · obtain ⟨n, -, rfl⟩ := map_eq_ok.mp h
    exact Int.natCast_nonneg n
  · exact absurd List.mem_cons_self hcs
  · obtain ⟨n, -, rfl⟩ := map_eq_ok.mp h
    exact Int.natCast_nonneg n

theorem toString_int_injective {x y : Int} (h : toString x = toString y) : x = y := by
  have hx := @readInteger_toString (min 0 (min x y)) (max x y) x (by omega) (by omega) (by omega)
  have hy := @readInteger_toString (min 0 (min x y)) (max x y) y (by omega) (by omega) (by omega)
  rw [h, hy] at hx
  exact (Except.ok.inj hx).symm

namespace Label

theorem toList_ofBlock {id : Int} (h : id ≠ 0) :
    (ofBlock id).name.toList = 'B' :: (toString id).toList := by
  simp [ofBlock, h, String.toList_append]
  rfl

theorem ofBlock_name_ne_entry {id : Int} (h : id ≠ 0) : (ofBlock id).name ≠ "entry" := by
  intro e
  have := congrArg String.toList e
  rw [toList_ofBlock h] at this
  cases this

/-- The label of a block in the range of words is read back as its number. -/
theorem blockId?_ofBlock {id : Int} (hlo : i32Min ≤ id) (hhi : id ≤ i32Max) :
    (ofBlock id).blockId? = some id := by
  unfold blockId?
  by_cases h : id = 0
  · simp [ofBlock, h]
  · rw [if_neg (ofBlock_name_ne_entry h), toList_ofBlock h]
    simp only [readInteger_toString (by decide) hlo hhi, Except.toOption]

/-- Different blocks carry different labels. -/
theorem ofBlock_injective {a b : Int} (h : ofBlock a = ofBlock b) : a = b := by
  by_cases ha : a = 0
  · by_cases hb : b = 0
    · rw [ha, hb]
    · have := ofBlock_name_ne_entry hb
      rw [← h, ha] at this
      exact absurd rfl this
  · by_cases hb : b = 0
    · have := ofBlock_name_ne_entry ha
      rw [h, hb] at this
      exact absurd rfl this
    · have := congrArg (fun l : Label => l.name.toList) h
      simp only [toList_ofBlock ha, toList_ofBlock hb, List.cons.injEq, true_and] at this
      exact toString_int_injective (String.toList_inj.mp this)

end Label

end LoopLanes
