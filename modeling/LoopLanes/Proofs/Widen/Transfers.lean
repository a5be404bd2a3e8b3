/-
What instructions compute of lane shapes.

Partial results come from phis alone; no instruction computes any (`transfer_ne_partials`).  And an instruction
whose result does not vary is executed once, on operands that do not vary either (`scalar_of_transfer`).
-/
import LoopLanes.Proofs.Lanes.Singles
import LoopLanes.Proofs.Widen.Steps

namespace LoopLanes

namespace LaneShape

variable {shape : Value → LaneShape} {x : Instr} {a b : LaneShape} {k : RedKind}

theorem combine_ne_partials (shapes : List LaneShape) : combine shapes ≠ partials k := by
  unfold combine
  split
  · simp
  · split <;> simp

theorem ofStride_ne_partials (s : Int) : ofStride s ≠ partials k := by
  unfold ofStride
  split <;> simp

theorem ofStride?_ne_partials (o : Option Int) : ofStride? a b o ≠ partials k := by
  cases o with
  | some s => exact ofStride_ne_partials s
  | none =>
    simp only [ofStride?]
    split <;> simp

theorem arith_ne_partials (op : ArithOp) (lhs rhs : Value) : arith op lhs rhs a b ≠ partials k := by
  unfold arith
  split
  · simp
  split
  · exact ofStride?_ne_partials _
  · exact ofStride?_ne_partials _
  · split
    · exact ofStride?_ne_partials _
    · split
      · exact ofStride?_ne_partials _
      · simp
  · split
    · exact ofStride?_ne_partials _
    · simp
  · exact combine_ne_partials _

/-- No instruction computes partial results. -/
theorem transfer_ne_partials (shape : Value → LaneShape) (x : Instr) : transfer shape x ≠ partials k := by
  cases x with
  | arith t op ty lhs rhs => exact arith_ne_partials op lhs rhs
  | comp t kind op ty lhs rhs => exact combine_ne_partials _
  | select t ty cond lhs rhs => exact combine_ne_partials _
  | gep t ty addr offset =>
    simp only [transfer]
    split
    · simp
    · split
      · exact ofStride_ne_partials _
      · simp
  | load t ty addr =>
    simp only [transfer]
    split <;> simp
  | _ => simp [transfer]

/-- Known operands give a known result, whatever the instruction. -/
theorem transfer_known (h : ∀ v, shape v ≠ unknown) (x : Instr) : transfer shape x ≠ unknown := by
  cases x with
  | arith | comp | select => exact transfer_ne_unknown rfl h
  | gep t ty addr offset =>
    simp only [transfer, isDefined, h addr, h offset, ne_eq, not_false_eq_true, decide_true, Bool.not_true,
      Bool.or_self, Bool.false_eq_true, if_false]
    split
    · simp only [ofStride]
      split <;> simp
    · simp
  | load t ty addr =>
    simp only [transfer]
    split
    · exact absurd ‹_› (h addr)
    · simp
    · simp
  | _ => simp [transfer]

/-- What does not vary was computed once, from what does not vary. -/
theorem scalar_of_transfer (h : ∀ v, shape v ≠ unknown) (hflat : (transfer shape x).isVector = false) :
    x.isVector = false ∧ x.isCall = false ∧
      (x.isReduce = true ∨ ∀ v ∈ x.reads, (shape v).isVector = false) := by
  cases x with
  | arith | comp | select => exact ⟨rfl, rfl, .inr (flat_of_transfer rfl h hflat)⟩
  | gep t ty addr offset =>
    refine ⟨rfl, rfl, .inr ?_⟩
    simp only [transfer, isDefined, h addr, h offset, ne_eq, not_false_eq_true, decide_true, Bool.not_true,
      Bool.or_self, Bool.false_eq_true, if_false] at hflat
    split at hflat
    · rename_i s hs
      obtain ⟨⟨u, v⟩, hstrides, -⟩ := Option.bind_eq_some_iff.mp hs
      obtain ⟨ha, ho⟩ : (shape addr).stride? = some u ∧ (shape offset).stride? = some v := by
        simpa [strides?, Option.bind_eq_some_iff] using hstrides
      simpa [Instr.reads] using ⟨isVector_of_stride? ha, isVector_of_stride? ho⟩
    · cases hflat
  | load t ty addr =>
    refine ⟨rfl, rfl, .inr ?_⟩
    simp only [transfer] at hflat
    split at hflat
    · exact absurd ‹_› (h addr)
    · simpa [Instr.reads, isVector] using congrArg isVector ‹shape addr = uniform›
    · cases hflat
  | reduce => exact ⟨rfl, rfl, .inl rfl⟩
  | _ => cases hflat

end LaneShape

end LoopLanes
