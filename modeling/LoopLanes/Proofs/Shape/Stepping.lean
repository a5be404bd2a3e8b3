/-
Shapes that are known beforehand.

Where whatever defines a temporary gives it one and the same shape at every stage of an inference, this is the
shape that it has in the end (`Pursued.shapeOf_infer`): it is found in the first pass, before what is still
unknown is taken to vary.  So is the stride of an induction variable, which the value that advances it has too
(`transfer_add`).
-/
import LoopLanes.Proofs.Widen.Tidy

namespace LoopLanes

namespace LaneInfo

variable {i j : LaneInfo} {bs : List Block} {u t : Temp} {a s : LaneShape} {K : LaneShape → Prop} {b : Block}
  {divergent : Bool}

/-- The shape that is computed for a temporary. -/
def computedAt (i : LaneInfo) (t : Temp) : LaneShape := (i.computed.lookup t).getD .unknown

theorem computedAt_update_of_ne (hne : t ≠ u) : (i.update t s).computedAt u = i.computedAt u := by
  unfold update
  split
  · rfl
  dsimp only
  split
  · rfl
  · rw [computedAt, lookup_setEntry_of_ne _ _ (Ne.symm hne), computedAt]

theorem computedAt_update_self : (i.update u s).computedAt u = i.computedAt u ∨
    (i.update u s).computedAt u = (i.computedAt u).join s := by
  unfold update
  split
  · exact .inl rfl
  dsimp only
  split
  · exact .inl rfl
  · exact .inr (by rw [computedAt, lookup_setEntry_self]; rfl)

/-- Blocks define a temporary by instructions that give it one shape at every stage. -/
structure Pursued (i : LaneInfo) (bs : List Block) (u : Temp) (a : LaneShape) : Prop where
  unpinned : i.pinned.lookup u = none
  known : a ≠ .unknown
  defined : ∃ b ∈ bs, ∃ x ∈ b.instrs, x.write = some u
  phis : ∀ b ∈ bs, ∀ p ∈ b.phis, p.target ≠ u
  instrs : ∀ b ∈ bs, ∀ x ∈ b.instrs, x.write = some u → ∀ j, Stage i j → LaneShape.transfer j.shape x = a

theorem Stage.propagate : ∀ {fuel : Nat} {j : LaneInfo}, Stage j (propagate bs divergent fuel j) := by
  intro fuel
  induction fuel with
  | zero => exact .refl
  | succ fuel ih =>
    intro j
    simp only [LaneInfo.propagate]
    split
    · exact .refl
    · exact (Stage.foldl (fun _ b => Stage.passBlock b) bs j).trans ih

namespace Pursued

/-- What is computed for the temporary is only ever joined with its shape. -/
theorem foldl {α : Type} {step : LaneInfo → α → LaneInfo} (hstage : ∀ j e, Stage j (step j e)) :
    ∀ {es : List α} {j : LaneInfo}, Stage i j → (∀ e ∈ es, ∀ j, Stage i j → K (j.computedAt u) →
      K ((step j e).computedAt u)) → K (j.computedAt u) → K ((es.foldl step j).computedAt u) := by
  intro es
  induction es with
  | nil => exact fun _ _ h => h
  | cons e es ih =>
    intro j hj hstep h
    obtain ⟨he, hes⟩ := List.forall_mem_cons.mp hstep
    exact ih (hj.trans (hstage j e)) hes (he j hj h)

theorem passBlock (h : i.Pursued bs u a) (hK : ∀ s, K s → K (s.join a)) (hb : b ∈ bs) (hj : Stage i j)
    (hu : K (j.computedAt u)) : K ((passBlock divergent j b).computedAt u) := by
  rw [passBlock_eq]
  refine foldl (fun _ x => .passInstr x) (hj.trans (Stage.foldl (fun _ p => .passPhi _ p) _ _)) (fun x hx k hk hu => ?_)
    (foldl (fun _ p => .passPhi _ p) hj (fun p hp k hk hu => ?_) hu)
  · unfold passInstr
    split
    · rename_i t hw
      by_cases e : t = u
      · subst e
        rw [h.instrs b hb x hx hw k hk]
        rcases computedAt_update_self (i := k) (u := t) (s := a) with e | e
        · rwa [e]
        · exact e ▸ hK _ hu
      · rwa [computedAt_update_of_ne e]
    · exact hu
  · rwa [passPhi, computedAt_update_of_ne (h.phis b hb p hp)]

theorem propagate (h : i.Pursued bs u a) (hK : ∀ s, K s → K (s.join a)) : ∀ {fuel : Nat} {j : LaneInfo}, Stage i j →
    K (j.computedAt u) → K ((propagate bs divergent fuel j).computedAt u) := by
  intro fuel
  induction fuel with
  | zero => exact fun _ hu => hu
  | succ fuel ih =>
    intro j hj hu
    have hstage : Stage j (bs.foldl (LaneInfo.passBlock divergent) j) :=
      Stage.foldl (fun _ b => Stage.passBlock b) bs j
    simp only [LaneInfo.propagate]
    split
    · exact hu
    · exact ih (hj.trans hstage) (foldl (fun _ b => Stage.passBlock b) hj
        (fun b hb k hk hu => h.passBlock hK hb hk hu) hu)

/-- Once nothing changes, the shape is found. -/
theorem computedAt_of_fixed (h : i.Pursued bs u a) (hj : Stage i j) (hfixed : ∀ b ∈ bs, FixedAt divergent j b)
    (hu : j.computedAt u = .unknown ∨ j.computedAt u = a) : j.computedAt u = a := by
  obtain ⟨b, hb, x, hx, hw⟩ := h.defined
  have hpass := (hfixed b hb).instrs x hx
  rw [passInstr, hw] at hpass
  have habsorbs := absorbs_of_update_eq hpass (hj.pinned ▸ h.unpinned)
  rw [h.instrs b hb x hx hw j hj] at habsorbs
  -- a shape that is still unknown would change in another pass
  refine hu.resolve_left fun e => ?_
  rcases LaneShape.absorbs_iff.mp habsorbs with e' | e' | ⟨e', -⟩
  · exact h.known e'
  · exact h.known (e'.symm.trans e)
  · cases e.symm.trans e'

/-- What is known does not come to vary. -/
theorem settleUnknown (h : i.Pursued bs u a) (hj : Stage i j) (hdefs : u ∈ i.defs) (hu : j.computedAt u = a) :
    (settleUnknown bs j).computedAt u = a := by
  refine foldl (K := (· = a)) (fun j t => ?_) hj (fun t _ k hk hu => ?_) hu
  · split
    · exact .refl
    · exact .update ..
  · by_cases e : t = u
    · subst e
      have hshape : k.shapeOf t = a :=
        (shapeOf_of_computed (hk.defs ▸ hdefs) (hk.pinned ▸ h.unpinned)).trans hu
      rw [if_pos (by simpa [LaneShape.isDefined, hshape] using h.known)]
      exact hu
    · split
      · exact hu
      · rwa [computedAt_update_of_ne e]

/-- One round of an inference finds the shape, and keeps it. -/
theorem round (h : i.Pursued bs u a) (divergent : Bool) (hdefs : u ∈ i.defs) {bound : Nat}
    (hbound : 2 * (writesOf bs).length < bound) (hj : Stage i j) (hu : j.computedAt u = .unknown ∨ j.computedAt u = a) :
    (LaneInfo.settleUnknown bs (LaneInfo.propagate bs divergent bound j)).computedAt u = a := by
  have hfixed := (@propagates_propagate bs divergent _ j
    (Nat.lt_of_le_of_lt (j.room_le (writesOf bs)) hbound)).spec.2.1
  have hstage : Stage i (LaneInfo.propagate bs divergent bound j) := hj.trans .propagate
  refine h.settleUnknown hstage hdefs (h.computedAt_of_fixed hstage hfixed ?_)
  refine h.propagate (K := fun s => s = .unknown ∨ s = a) ?_ hj hu
  rintro s (rfl | rfl)
  · exact .inr rfl
  · exact .inr (LaneShape.join_self s)

theorem settle (h : i.Pursued bs u a) (hdefs : u ∈ i.defs) {bound : Nat} (hbound : 2 * (writesOf bs).length < bound) :
    ∀ {fuel : Nat} {divergent : Bool} {j : LaneInfo}, Stage i j →
      (fuel ≠ 0 ∧ j.computedAt u = .unknown ∨ j.computedAt u = a) →
      (settle bs bound fuel divergent j).1.computedAt u = a := by
  intro fuel
  induction fuel with
  | zero => exact fun _ hu => hu.resolve_left fun h => h.1 rfl -- one round is made at least
  | succ fuel ih =>
    intro divergent j hj hu
    have hround := h.round divergent hdefs hbound hj (hu.imp_left (·.2))
    have hstage : Stage i (LaneInfo.settleUnknown bs (LaneInfo.propagate bs divergent bound j)) :=
      hj.trans (Stage.propagate.trans .settleUnknown)
    simp only [LaneInfo.settle]
    split
    · exact ih hstage (.inr hround)
    · split
      · exact hround
      · exact ih hstage (.inr hround)

end Pursued

/-- A shape that is known beforehand is the one that is inferred. -/
theorem shapeOf_infer {f : Func} (h : Pursued { i with computed := [], defs := writesOf (i.region.blocksIn f) }
    (i.region.blocksIn f) u a) : (i.infer f).1.shapeOf u = a := by
  obtain ⟨hstage, -, -⟩ := infer_spec f i
  obtain ⟨b, hb, x, hx, hw⟩ := h.defined
  have hdefs := mem_writesOf_of_instr hb hx hw
  rw [shapeOf_of_computed (hstage.defs ▸ hdefs) (hstage.pinned ▸ h.unpinned)]
  exact h.settle hdefs (by omega) .refl (.inl ⟨by omega, rfl⟩)

/-- The value that advances an induction variable has its stride. -/
theorem transfer_add {j : LaneInfo} {m : Int} {c : Int32} {ty : Ty} (hm : fitI32? m = some m)
    (hshape : j.shapeOf t = .ofStride m) :
    LaneShape.transfer j.shape (.arith u .add ty (.temp t) (.int c)) = .ofStride m := by
  have hne : LaneShape.ofStride m ≠ .unknown := by
    unfold LaneShape.ofStride
    split <;> simp
  have hstrides : LaneShape.strides? (.ofStride m) .uniform = some (m, 0) := by
    rw [LaneShape.strides?, LaneShape.stride?_ofStride]
    rfl
  have hdefined : ¬ (!(LaneShape.ofStride m).isDefined || !LaneShape.uniform.isDefined) = true := by
    simp [LaneShape.isDefined, hne]
  rw [LaneShape.transfer, show j.shape (.temp t) = .ofStride m from hshape, show j.shape (.int c) = .uniform from rfl,
    LaneShape.arith.eq_def, if_neg hdefined]
  simp only [hstrides, Int.add_zero, hm]
  rfl

end LaneInfo

end LoopLanes
