/-
What shapes say about the values of lanes.

`LaneShape.Conforms` gives every shape its meaning.  Instructions keep it: where the values of
the operands conform to their shapes, the results conform to the shape that `transfer` gives
(`conforms_arith`, `conforms_combine`).  What conforms to a shape conforms to what it is joined to
(`Conforms.of_absorbs`).
-/
import Mathlib.Tactic.Ring
import LoopLanes.Shape.Inference
import LoopLanes.Lanes.Cell
import LoopLanes.Proofs.Basic.Words

namespace LoopLanes

namespace LaneShape

/-- The values of `width` lanes are related as a shape says. -/
def Conforms (width : Nat) : LaneShape → (Nat → Cell) → Prop
  | uniform, xs => ∀ k < width, xs k = xs 0
  | strided s, xs => ∀ k < width, (xs 0).offset (k * s) = .ok (xs k)
  | _, _ => True

variable {width : Nat} {a b : LaneShape} {xs ys zs : Nat → Cell} {s r : Int}

theorem Conforms.congr (h : a.Conforms width xs) (hxy : ∀ k < width, xs k = ys k) :
    a.Conforms width ys := by
  cases a <;> try trivial
  case uniform =>
    intro k hk
    rw [← hxy k hk, ← hxy 0 (by omega)]
    exact h k hk
  case strided s =>
    intro k hk
    rw [← hxy k hk, ← hxy 0 (by omega)]
    exact h k hk

/-! ### Joins -/

/-- A shape says no more than another one. -/
def Absorbs (a b : LaneShape) : Prop := a.join b = a

theorem absorbs_iff : a.Absorbs b ↔ b = unknown ∨ a = b ∨ (a = varying ∧ b ≠ unknown) := by
  unfold Absorbs
  cases a <;> cases b <;> simp [join]

theorem Conforms.of_absorbs (h : b.Conforms width xs) (hab : a.Absorbs b) (hb : b ≠ unknown) :
    a.Conforms width xs := by
  rcases absorbs_iff.mp hab with e | rfl | ⟨rfl, -⟩
  · exact absurd e hb
  · exact h
  · trivial

/-! ### Words -/

theorem offset_int (x : Int32) (d : Int) : (Cell.int x).offset d = .ok (.int (x + .ofInt d)) := rfl

/-- Lanes that hold words, a stride apart. -/
theorem Conforms.words (h : a.Conforms width xs) (hs : a.stride? = some s) {x : Nat → Int32}
    (hx : ∀ k < width, xs k = .int (x k)) (k : Nat) (hk : k < width) :
    x k = x 0 + .ofInt (k * s) := by
  have h0 := hx 0 (by omega)
  cases a <;> simp only [stride?, reduceCtorEq, Option.some.injEq] at hs
  case uniform =>
    subst hs
    have := h k hk
    rw [hx k hk, h0] at this
    simpa using this
  case strided t =>
    subst hs
    have := h k hk
    rw [hx k hk, h0, offset_int] at this
    simpa using this.symm

theorem conforms_ofStride {x : Nat → Int32} (hx : ∀ k < width, xs k = .int (x k))
    (h : ∀ k < width, x k = x 0 + .ofInt (k * s)) : (ofStride s).Conforms width xs := by
  unfold ofStride
  split
  · rename_i hs
    intro k hk
    rw [hx k hk, hx 0 (by omega), h k hk]
    simp [hs]
  · intro k hk
    rw [hx k hk, hx 0 (by omega), h k hk, offset_int]

/-! ### Instructions -/

theorem isUniform_iff : a.isUniform = true ↔ a = uniform := by simp [isUniform]

/-- Where nothing is told apart, all lanes have to agree on everything. -/
theorem conforms_combine {shapes : List LaneShape}
    (h : (∀ a ∈ shapes, a = uniform) → ∀ k < width, zs k = zs 0) :
    (combine shapes).Conforms width zs := by
  unfold combine
  split
  · trivial
  · split
    · rename_i hall
      exact h fun a ha => isUniform_iff.mp (List.all_eq_true.mp hall a ha)
    · trivial

/-- Words that an operator was applied to. -/
theorem onInts_eq_ok {g : Int32 → Int32 → Int32} {x y z : Cell}
    (h : Cell.onInts g x y = .ok z) : ∃ v w, x = .int v ∧ y = .int w ∧ z = .int (g v w) := by
  cases x <;> cases y <;> simp_all [Cell.onInts, Cell.toInt32, bind, Except.bind, pure, Except.pure]

/-- Lanes that an operator on words is applied to. -/
theorem words_of_onInts {g : Int32 → Int32 → Int32}
    (h : ∀ k < width, Cell.onInts g (xs k) (ys k) = .ok (zs k)) :
    ∃ x y : Nat → Int32, (∀ k < width, xs k = .int (x k)) ∧ (∀ k < width, ys k = .int (y k)) ∧
      ∀ k < width, zs k = .int (g (x k) (y k)) := by
  have hlane : ∀ k, ∃ v w, k < width → xs k = .int v ∧ ys k = .int w ∧ zs k = .int (g v w) := by
    intro k
    by_cases hk : k < width
    · obtain ⟨v, w, h⟩ := onInts_eq_ok (h k hk)
      exact ⟨v, w, fun _ => h⟩
    · exact ⟨0, 0, fun h => absurd h hk⟩
  choose x y hxy using hlane
  exact ⟨x, y, fun k hk => (hxy k hk).1, fun k hk => (hxy k hk).2.1, fun k hk => (hxy k hk).2.2⟩

theorem conforms_ofStride? {o : Option Int}
    (hstride : ∀ m, o = some m → (ofStride m).Conforms width zs)
    (huniform : a = uniform → b = uniform → ∀ k < width, zs k = zs 0) :
    (ofStride? a b o).Conforms width zs := by
  cases o with
  | some m => exact hstride m rfl
  | none =>
    simp only [ofStride?]
    split
    · rename_i h
      obtain ⟨ha, hb⟩ := Bool.and_eq_true_iff.mp h
      exact huniform (isUniform_iff.mp ha) (isUniform_iff.mp hb)
    · trivial

theorem eq_of_int?_bind {v : Value} {o : Int → Option Int} {m : Int} (h : v.int?.bind o = some m) :
    ∃ c : Int32, v = .int c ∧ o c.toInt = some m := by
  obtain ⟨c, hc, h⟩ := Option.bind_eq_some_iff.mp h
  cases v with
  | int w =>
    cases hc
    exact ⟨w, rfl, h⟩
  | _ => cases hc

theorem strides?_eq_some_iff :
    strides? a b = some (s, r) ↔ a.stride? = some s ∧ b.stride? = some r := by
  simp [strides?, Option.bind_eq_some_iff]

section Arith

variable {op : ArithOp} {lhs rhs : Value}

/-- Sums and differences of strided values. -/
theorem conforms_add (hx : a.Conforms width xs) (hy : b.Conforms width ys)
    (ha : a.stride? = some s) (hb : b.stride? = some r)
    (h : ∀ k < width, Cell.onInts (· + ·) (xs k) (ys k) = .ok (zs k)) :
    (ofStride (s + r)).Conforms width zs := by
  obtain ⟨x, y, hxs, hys, hzs⟩ := words_of_onInts h
  refine conforms_ofStride hzs fun k hk => ?_
  rw [hx.words ha hxs k hk, hy.words hb hys k hk, Int.mul_add, Int32.ofInt_add]
  grind

theorem conforms_sub (hx : a.Conforms width xs) (hy : b.Conforms width ys)
    (ha : a.stride? = some s) (hb : b.stride? = some r)
    (h : ∀ k < width, Cell.onInts (· - ·) (xs k) (ys k) = .ok (zs k)) :
    (ofStride (s - r)).Conforms width zs := by
  obtain ⟨x, y, hxs, hys, hzs⟩ := words_of_onInts h
  refine conforms_ofStride hzs fun k hk => ?_
  rw [hx.words ha hxs k hk, hy.words hb hys k hk, Int.mul_sub, Int32.ofInt_sub]
  grind

/-- A product of a strided value and a constant. -/
theorem conforms_mul {x : Nat → Int32} {c : Int32} {m : Int} (hx : a.Conforms width xs)
    (ha : a.stride? = some s) (hm : Int32.ofInt m = .ofInt s * c) (hxs : ∀ k < width, xs k = .int (x k))
    (hzs : ∀ k < width, zs k = .int (x k * c)) : (ofStride m).Conforms width zs := by
  refine conforms_ofStride hzs fun k hk => ?_
  rw [hx.words ha hxs k hk, Int32.ofInt_mul, Int32.ofInt_mul, hm]
  grind

/-- A strided value and a constant, under an operator that comes to a product. -/
theorem conforms_times {g : Int32 → Int32 → Int32} {scale : Int → Option Int}
    {v : Value} {m : Int} {x y : Nat → Int32} (hx : a.Conforms width xs) (ha : a.stride? = some s)
    (hxs : ∀ k < width, xs k = .int (x k)) (hys : ∀ k < width, ys k = .int (y k))
    (hzs : ∀ k < width, zs k = .int (g (x k) (y k)))
    (hv : ∀ c, v = .int c → ∀ k < width, ys k = .int c)
    (hscale : ∀ (c : Int32) m, scale c.toInt = some m →
      ∃ d, .ofInt m = .ofInt s * d ∧ ∀ w, g w c = w * d)
    (hm : v.int?.bind scale = some m) : (ofStride m).Conforms width zs := by
  obtain ⟨c, rfl, hfit⟩ := eq_of_int?_bind hm
  obtain ⟨d, hd, hg⟩ := hscale c m hfit
  refine conforms_mul hx ha hd hxs fun k hk => ?_
  have hc := Cell.int.inj ((hys k hk).symm.trans (hv c rfl k hk))
  rw [hzs k hk, hc, hg]

/-- Arithmetic keeps what shapes say. -/
theorem conforms_arith (hx : a.Conforms width xs) (hy : b.Conforms width ys)
    (hl : ∀ c, lhs = .int c → ∀ k < width, xs k = .int c)
    (hr : ∀ c, rhs = .int c → ∀ k < width, ys k = .int c)
    (h : ∀ k < width, Cell.arith op (xs k) (ys k) = .ok (zs k)) :
    (arith op lhs rhs a b).Conforms width zs := by
  have huniform : a = uniform → b = uniform → ∀ k < width, zs k = zs 0 := by
    rintro rfl rfl k hk
    have hk' := h k hk
    rw [hx k hk, hy k hk, h 0 (by omega)] at hk'
    exact (Except.ok.inj hk').symm
  have hcombine : (combine [a, b]).Conforms width zs :=
    conforms_combine fun hall => huniform (hall a (by simp)) (hall b (by simp))
  unfold arith
  split
  · trivial
  split
  · -- sums
    rename_i s r hs
    obtain ⟨ha, hb⟩ := strides?_eq_some_iff.mp hs
    refine conforms_ofStride? (fun m hm => ?_) huniform
    rw [(fitI32?_eq_some hm).1]
    exact conforms_add hx hy ha hb h
  · rename_i s r hs
    obtain ⟨ha, hb⟩ := strides?_eq_some_iff.mp hs
    refine conforms_ofStride? (fun m hm => ?_) huniform
    rw [(fitI32?_eq_some hm).1]
    exact conforms_sub hx hy ha hb h
  · -- products with a constant on either side
    rename_i s r hs
    obtain ⟨ha, hb⟩ := strides?_eq_some_iff.mp hs
    obtain ⟨x, y, hxs, hys, hzs⟩ := words_of_onInts h
    have hproduct : ∀ (t : Int) (c : Int32) m, fitI32? (t * c.toInt) = some m →
        Int32.ofInt m = .ofInt t * c := fun t c m hfit => by
      rw [(fitI32?_eq_some hfit).1, Int32.ofInt_mul, Int32.ofInt_toInt]
    split
    · exact conforms_ofStride? (fun m hm => conforms_times hx ha hxs hys hzs hr
        (fun c m hfit => ⟨c, hproduct s c m hfit, fun _ => rfl⟩) hm) huniform
    · split
      · exact conforms_ofStride? (fun m hm => conforms_times hy hb hys hxs
          (fun k hk => (hzs k hk).trans (congrArg _ (Int32.mul_comm _ _))) hl
          (fun c m hfit => ⟨c, hproduct r c m hfit, fun _ => rfl⟩) hm) huniform
      · trivial
  · -- shifts by a constant
    rename_i s r hs
    obtain ⟨ha, hb⟩ := strides?_eq_some_iff.mp hs
    obtain ⟨x, y, hxs, hys, hzs⟩ := words_of_onInts h
    split
    · refine conforms_ofStride? (fun m hm => conforms_times (g := (· <<< ·)) hx ha hxs hys hzs hr ?_ hm)
        huniform
      intro c m hfit
      split at hfit
      · rename_i hrange
        refine ⟨.ofInt (2 ^ c.toInt.toNat), ?_, fun w => shiftLeft_eq_mul w c hrange.1 hrange.2⟩
        rw [(fitI32?_eq_some hfit).1, Int32.ofInt_mul]
        rfl
      · cases hfit
    · trivial
  · exact hcombine

end Arith

end LaneShape

end LoopLanes
