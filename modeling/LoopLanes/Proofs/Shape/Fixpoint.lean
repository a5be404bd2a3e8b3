/-
The shapes that inference settles on.

Shapes only grow, and each of them at most twice, so there is a bound on the changes still to
come (`LaneInfo.room`).  Hence inference never runs out of fuel: when it ends, no instruction
changes a shape any more, and every shape is known (`infer_spec`).  `Propagates` and `Settles` say
what it does without a limit.
-/
import Mathlib.Algebra.Order.BigOperators.Group.List
import LoopLanes.Proofs.Shape.Conform

namespace LoopLanes

namespace LaneShape

variable {a b c : LaneShape}

/-- How often a shape may still grow. -/
def room : LaneShape → Nat
  | unknown => 2
  | varying => 0
  | _ => 1

theorem room_le (a : LaneShape) : a.room ≤ 2 := by cases a <;> simp [room]

theorem room_eq_zero : a.room = 0 ↔ a = varying := by cases a <;> simp [room]

theorem room_join (h : a.join b ≠ a) : (a.join b).room < a.room := by
  have hcases : a = unknown ∧ a.join b = b ∨ a.join b = varying := by
    unfold join at h ⊢
    split at h
    · exact .inl ⟨rfl, rfl⟩
    · exact absurd rfl h
    · split at h
      · exact absurd rfl h
      · rename_i hne
        exact .inr (if_neg hne)
  rcases hcases with ⟨rfl, e⟩ | e
  · rw [e] at h ⊢
    cases b <;> simp_all [room]
  · rw [e] at h ⊢
    exact Nat.pos_of_ne_zero fun h0 => h (room_eq_zero.mp h0).symm

theorem absorbs_join (h : a.Absorbs (b.join c)) : a.Absorbs b ∧ a.Absorbs c := by
  cases a <;> cases b <;> cases c <;> simp_all [Absorbs, join] <;> grind

/-- What absorbs a join of several shapes absorbs each of them. -/
theorem absorbs_foldl {α : Type} {g : α → LaneShape} : ∀ {es : List α} {s : LaneShape},
    a.Absorbs (es.foldl (fun s e => s.join (g e)) s) → a.Absorbs s ∧ ∀ e ∈ es, a.Absorbs (g e) := by
  intro es
  induction es with
  | nil => exact fun h => ⟨h, by simp⟩
  | cons e es ih =>
    intro s h
    obtain ⟨hs, hes⟩ := ih h
    obtain ⟨hs, he⟩ := absorbs_join hs
    exact ⟨hs, List.forall_mem_cons.mpr ⟨he, hes⟩⟩

end LaneShape

/-- Steps that leave a state alone or shrink its room: a pass over a list does the same, and
where it leaves the state alone, so does each step. -/
theorem foldl_eq_or_lt {σ α : Type} (room : σ → Nat) (step : σ → α → σ) (l : List α)
    (hstep : ∀ s, ∀ a ∈ l, step s a = s ∨ room (step s a) < room s) (s : σ) :
    l.foldl step s = s ∧ (∀ a ∈ l, step s a = s) ∨ room (l.foldl step s) < room s := by
  induction l generalizing s with
  | nil => exact .inl ⟨rfl, by simp⟩
  | cons a l ih =>
    have ih := ih fun s b hb => hstep s b (List.mem_cons_of_mem _ hb)
    rw [List.foldl_cons]
    rcases hstep s a List.mem_cons_self with e | hlt
    · rw [e]
      exact (ih s).imp_left fun ⟨h, hall⟩ => ⟨h, List.forall_mem_cons.mpr ⟨e, hall⟩⟩
    · right
      rcases ih (step s a) with ⟨e, -⟩ | h
      · rwa [e]
      · omega

namespace LaneInfo

variable {f : Func} {i j : LaneInfo} {t : Temp} {s : LaneShape} {ts : List Temp} {bs : List Block}
  {divergent : Bool}

/-- How much the shapes of some temporaries may still grow. -/
def room (ts : List Temp) (i : LaneInfo) : Nat :=
  (ts.map fun t => ((i.computed.lookup t).getD .unknown).room).sum

theorem room_le (ts : List Temp) (i : LaneInfo) : i.room ts ≤ 2 * ts.length := by
  have h := List.sum_le_card_nsmul (ts.map fun t => ((i.computed.lookup t).getD .unknown).room) 2
    (by simp only [List.mem_map]; rintro _ ⟨t, -, rfl⟩; exact LaneShape.room_le _)
  simpa [room, Nat.mul_comm] using h

/-- Two stages of one inference. -/
structure Stage (i j : LaneInfo) : Prop where
  width : j.width = i.width
  region : j.region = i.region
  pinned : j.pinned = i.pinned
  defs : j.defs = i.defs

namespace Stage

theorem refl : Stage i i := ⟨rfl, rfl, rfl, rfl⟩

theorem trans {k : LaneInfo} (h : Stage i j) (h' : Stage j k) : Stage i k :=
  ⟨h'.width.trans h.width, h'.region.trans h.region, h'.pinned.trans h.pinned, h'.defs.trans h.defs⟩

theorem foldl {α : Type} {step : LaneInfo → α → LaneInfo} (h : ∀ i a, Stage i (step i a)) :
    ∀ (l : List α) (i : LaneInfo), Stage i (l.foldl step i) := by
  intro l
  induction l with
  | nil => exact fun _ => refl
  | cons a l ih => exact fun i => (h i a).trans (ih (step i a))

theorem eq (h : Stage i j) (hc : j.computed = i.computed) : j = i := by
  cases i
  cases j
  obtain ⟨h₁, h₂, h₃, h₄⟩ := h
  simp_all

theorem update (t : Temp) (s : LaneShape) : Stage i (i.update t s) := by
  unfold LaneInfo.update
  split
  · exact refl
  · dsimp only
    split
    · exact refl
    · exact ⟨rfl, rfl, rfl, rfl⟩

end Stage

/-! ### One step -/

theorem update_eq_or_lt (ht : t ∈ ts) : i.update t s = i ∨ (i.update t s).room ts < i.room ts := by
  unfold update
  split
  · exact .inl rfl
  dsimp only
  split
  · exact .inl rfl
  rename_i hgrows
  right
  have hle : ∀ u : Temp, (((setEntry t (((i.computed.lookup t).getD .unknown).join s)
      i.computed).lookup u).getD .unknown).room ≤ ((i.computed.lookup u).getD .unknown).room := by
    intro u
    by_cases h : u = t
    · rw [h, lookup_setEntry_self]
      exact Nat.le_of_lt (LaneShape.room_join hgrows)
    · rw [lookup_setEntry_of_ne _ _ h]
  refine List.sum_lt_sum _ _ (fun u _ => hle u) ⟨t, ht, ?_⟩
  rw [lookup_setEntry_self]
  exact LaneShape.room_join hgrows

/-- A shape that is not pinned and does not change absorbs what it is joined with. -/
theorem absorbs_of_update_eq (h : i.update t s = i) (hpin : i.pinned.lookup t = none) :
    ((i.computed.lookup t).getD .unknown).Absorbs s := by
  by_contra hgrows
  have hset : (i.update t s).computed.lookup t =
      some (((i.computed.lookup t).getD .unknown).join s) := by
    unfold update
    rw [if_neg (by simp [hpin])]
    dsimp only
    rw [if_neg (show ¬ LaneShape.join _ _ = _ from hgrows), lookup_setEntry_self]
  rw [h] at hset
  exact hgrows (by rw [LaneShape.Absorbs, ← Option.getD_some (a := LaneShape.join _ _), ← hset])

/-- What is done for a phi. -/
def passPhi (merges : Bool) (i : LaneInfo) (p : Phi) : LaneInfo :=
  i.update p.target (i.phiShape merges p)

/-- What is done for an instruction. -/
def passInstr (i : LaneInfo) (instr : Instr) : LaneInfo :=
  match instr.write with
  | some t => i.update t (LaneShape.transfer i.shape instr)
  | none => i

/-- Whether lanes may come to a block along different edges. -/
def merges (divergent : Bool) (i : LaneInfo) (b : Block) : Bool :=
  divergent && b.id != i.region.header.number && 1 < b.prev.length

theorem passBlock_eq (b : Block) : passBlock divergent i b =
    b.instrs.foldl passInstr (b.phis.foldl (passPhi (i.merges divergent b)) i) := rfl

theorem Stage.passPhi (merges : Bool) (p : Phi) : Stage i (i.passPhi merges p) := .update ..

theorem Stage.passInstr (instr : Instr) : Stage i (i.passInstr instr) := by
  unfold LaneInfo.passInstr
  split
  · exact .update ..
  · exact .refl

theorem Stage.passBlock (b : Block) : Stage i (passBlock divergent i b) :=
  (Stage.foldl (fun _ p => Stage.passPhi _ p) _ _).trans (Stage.foldl (fun _ x => .passInstr x) _ _)

/-- Neither the phis nor the instructions of a block change a shape. -/
structure FixedAt (divergent : Bool) (i : LaneInfo) (b : Block) : Prop where
  phis : ∀ p ∈ b.phis, i.passPhi (i.merges divergent b) p = i
  instrs : ∀ instr ∈ b.instrs, i.passInstr instr = i

theorem passBlock_eq_or_lt {b : Block} (hb : ∀ t ∈ b.writes, t ∈ ts) :
    passBlock divergent i b = i ∧ FixedAt divergent i b ∨
      (passBlock divergent i b).room ts < i.room ts := by
  have hphis := foldl_eq_or_lt (room ts) (passPhi (i.merges divergent b)) b.phis
    (fun j p hp => update_eq_or_lt (hb _ (List.mem_append_left _ (List.mem_map_of_mem hp)))) i
  have hinstrs := foldl_eq_or_lt (room ts) passInstr b.instrs (fun j x hx => by
    unfold passInstr
    split
    · rename_i t ht
      exact update_eq_or_lt (hb _ (List.mem_append_right _ (List.mem_filterMap.mpr ⟨x, hx, ht⟩)))
    · exact .inl rfl)
  rw [passBlock_eq]
  rcases hphis with ⟨e, hphis⟩ | hlt
  · rw [e]
    exact (hinstrs i).imp_left fun ⟨e, hfixed⟩ => ⟨e, hphis, hfixed⟩
  · rcases hinstrs (b.phis.foldl (passPhi (i.merges divergent b)) i) with ⟨e, -⟩ | hlt'
    · rw [e]
      exact .inr hlt
    · exact .inr (hlt'.trans hlt)

/-! ### Until nothing changes -/

/-- A pass over all blocks leaves the shapes alone at every block, or shrinks the room. -/
theorem pass_eq_or_lt (i : LaneInfo) :
    (∀ b ∈ bs, FixedAt divergent i b) ∧ bs.foldl (passBlock divergent) i = i ∨
      (bs.foldl (passBlock divergent) i).room (writesOf bs) < i.room (writesOf bs) := by
  have hwrites : ∀ b ∈ bs, ∀ t ∈ b.writes, t ∈ writesOf bs :=
    fun b hb t ht => List.mem_flatMap.mpr ⟨b, hb, ht⟩
  rcases foldl_eq_or_lt (room (writesOf bs)) (passBlock divergent) bs
    (fun j b hb => (passBlock_eq_or_lt (hwrites b hb)).imp_left (·.1)) i with ⟨e, hfixed⟩ | hlt
  · refine .inl ⟨fun b hb => ?_, e⟩
    rcases @passBlock_eq_or_lt i (writesOf bs) divergent b (hwrites b hb) with ⟨-, h⟩ | hlt
    · exact h
    · rw [hfixed b hb] at hlt
      exact absurd hlt (Nat.lt_irrefl _)
  · exact .inr hlt

/-- Shapes are carried through all blocks until nothing changes. -/
inductive Propagates (bs : List Block) (divergent : Bool) : LaneInfo → LaneInfo → Prop
  | done {i : LaneInfo} (same : (bs.foldl (passBlock divergent) i).computed = i.computed) :
      Propagates bs divergent i i
  | again {i j : LaneInfo} (changed : (bs.foldl (passBlock divergent) i).computed ≠ i.computed)
      (rest : Propagates bs divergent (bs.foldl (passBlock divergent) i) j) : Propagates bs divergent i j

theorem Stage.pass : Stage i (bs.foldl (LaneInfo.passBlock divergent) i) :=
  Stage.foldl (fun _ b => Stage.passBlock b) bs i

/-- A pass that changes something shrinks the room. -/
theorem pass_lt (changed : (bs.foldl (passBlock divergent) i).computed ≠ i.computed) :
    (bs.foldl (passBlock divergent) i).room (writesOf bs) < i.room (writesOf bs) :=
  (pass_eq_or_lt i).resolve_left fun ⟨_, e⟩ => changed (congrArg computed e)

/-- Fuel for every change to come is enough. -/
theorem propagates_propagate : ∀ {fuel : Nat} {i : LaneInfo}, i.room (writesOf bs) < fuel →
    Propagates bs divergent i (propagate bs divergent fuel i) := by
  intro fuel
  induction fuel with
  | zero => exact fun h => absurd h (Nat.not_lt_zero _)
  | succ fuel ih =>
    intro i hfuel
    simp only [propagate]
    split
    · exact .done ‹_›
    · rename_i changed
      have hlt := pass_lt changed
      exact .again changed (ih (by omega))

/-- Propagation ends where nothing changes. -/
theorem Propagates.spec (h : Propagates bs divergent i j) :
    Stage i j ∧ (∀ b ∈ bs, FixedAt divergent j b) ∧ j.room (writesOf bs) ≤ i.room (writesOf bs) := by
  induction h with
  | @done i same =>
    rcases @pass_eq_or_lt bs divergent i with ⟨hfixed, -⟩ | hlt
    · exact ⟨.refl, hfixed, Nat.le_refl _⟩
    · rw [Stage.pass.eq same] at hlt
      exact absurd hlt (Nat.lt_irrefl _)
  | again changed _ ih =>
    have hlt := pass_lt changed
    exact ⟨Stage.trans Stage.pass ih.1, ih.2.1, by omega⟩

/-- Either everything is known already, or settling the rest shrinks the room. -/
theorem settleUnknown_eq_or_lt (i : LaneInfo) :
    settleUnknown bs i = i ∧ (∀ t ∈ writesOf bs, (i.shapeOf t).isDefined = true ∨
      i.update t .varying = i) ∨
      (settleUnknown bs i).room (writesOf bs) < i.room (writesOf bs) := by
  refine (foldl_eq_or_lt (room (writesOf bs)) _ _ (fun j t ht => ?_) i).imp_left
    fun ⟨e, hall⟩ => ⟨e, fun t ht => ?_⟩
  · split
    · exact .inl rfl
    · exact update_eq_or_lt ht
  · have := hall t ht
    split at this
    · exact .inl ‹_›
    · exact .inr this

theorem Stage.settleUnknown : Stage i (settleUnknown bs i) :=
  Stage.foldl (fun i t => by split <;> first | exact .refl | exact .update ..) _ _

/-- What inference ends with: no shape changes any more, and all are known. -/
structure Settled (bs : List Block) (i : LaneInfo) : Prop where
  fixed : ∃ divergent, ∀ b ∈ bs, FixedAt divergent i b
  known : ∀ t ∈ writesOf bs, (i.shapeOf t).isDefined = true ∨ i.update t .varying = i

/-- Shapes are carried on and settled in turn until nothing changes, and carried on anew as soon as a branch
varies. -/
inductive Settles (bs : List Block) : Bool → LaneInfo → LaneInfo → List Int → Prop
  | diverge {i p j : LaneInfo} {branches : List Int} (carried : Propagates bs false i p)
      (varying : varyingBranches bs (settleUnknown bs p) ≠ [])
      (rest : Settles bs true (settleUnknown bs p) j branches) : Settles bs false i j branches
  | again {divergent : Bool} {i p j : LaneInfo} {branches : List Int} (carried : Propagates bs divergent i p)
      (noted : varyingBranches bs (settleUnknown bs p) ≠ [] → divergent = true)
      (changed : (settleUnknown bs p).computed ≠ p.computed)
      (rest : Settles bs divergent (settleUnknown bs p) j branches) : Settles bs divergent i j branches
  | done {divergent : Bool} {i p : LaneInfo} (carried : Propagates bs divergent i p)
      (noted : varyingBranches bs (settleUnknown bs p) ≠ [] → divergent = true)
      (same : (settleUnknown bs p).computed = p.computed) :
      Settles bs divergent i (settleUnknown bs p) (varyingBranches bs (settleUnknown bs p))

/-- Settling ends, for it changes shapes or notes the first branch that varies. -/
theorem settles_settle {bound : Nat} (hbound : 2 * (writesOf bs).length < bound) :
    ∀ {fuel : Nat} {divergent : Bool} {i : LaneInfo},
      i.room (writesOf bs) + (if divergent then 0 else 1) < fuel →
      Settles bs divergent i (settle bs bound fuel divergent i).1 (settle bs bound fuel divergent i).2 := by
  intro fuel
  induction fuel with
  | zero => exact fun h => absurd h (Nat.not_lt_zero _)
  | succ fuel ih =>
    intro divergent i hfuel
    have hcarried : Propagates bs divergent i (propagate bs divergent bound i) :=
      propagates_propagate (Nat.lt_of_le_of_lt (i.room_le (writesOf bs)) hbound)
    have hroom := hcarried.spec.2.2
    have hunknown := @settleUnknown_eq_or_lt bs (propagate bs divergent bound i)
    simp only [settle]
    generalize propagate bs divergent bound i = p at *
    split
    · rename_i hswitch
      obtain ⟨hvarying, rfl⟩ : varyingBranches bs (settleUnknown bs p) ≠ [] ∧ divergent = false := by
        simpa using hswitch
      refine .diverge hcarried hvarying (ih ?_)
      have hle : (settleUnknown bs p).room (writesOf bs) ≤ p.room (writesOf bs) := by
        rcases hunknown with ⟨e, -⟩ | h
        · rw [e]
        · omega
      simp only [Bool.false_eq_true, if_false] at hfuel
      simp only [if_true]
      omega
    · rename_i hswitch
      have hnoted : varyingBranches bs (settleUnknown bs p) ≠ [] → divergent = true := by
        simpa using hswitch
      split
      · exact .done hcarried hnoted ‹_›
      · rename_i changed
        refine .again hcarried hnoted changed (ih ?_)
        have hlt := hunknown.resolve_left fun ⟨e, _⟩ => changed (congrArg computed e)
        omega

/-- Settling ends where all shapes are known, and lanes meet wherever a branch varies. -/
theorem Settles.spec {branches : List Int} (h : Settles bs divergent i j branches) :
    Stage i j ∧ (∃ meeting, (branches ≠ [] → meeting = true) ∧ ∀ b ∈ bs, FixedAt meeting j b) ∧
      (∀ t ∈ writesOf bs, (j.shapeOf t).isDefined = true ∨ j.update t .varying = j) ∧
      branches = varyingBranches bs j := by
  induction h with
  | diverge carried _ _ ih => exact ⟨(carried.spec.1.trans .settleUnknown).trans ih.1, ih.2⟩
  | again carried _ _ _ ih => exact ⟨(carried.spec.1.trans .settleUnknown).trans ih.1, ih.2⟩
  | @done divergent i p carried noted same =>
    obtain ⟨hstage, hfixed, -⟩ := carried.spec
    have e := Stage.settleUnknown.eq same
    rcases @settleUnknown_eq_or_lt bs p with ⟨-, hknown⟩ | hlt
    · rw [e] at noted ⊢
      exact ⟨hstage, ⟨divergent, noted, hfixed⟩, hknown, rfl⟩
    · rw [e] at hlt
      exact absurd hlt (Nat.lt_irrefl _)

/-- Inference comes to an end. -/
theorem settles_infer (f : Func) (i : LaneInfo) : Settles (i.region.blocksIn f) false
    { i with computed := [], defs := writesOf (i.region.blocksIn f) } (i.infer f).1 (i.infer f).2 := by
  refine settles_settle (by omega) ?_
  have := LaneInfo.room_le (writesOf (i.region.blocksIn f))
    { i with computed := [], defs := writesOf (i.region.blocksIn f) }
  simp only [Bool.false_eq_true, if_false]
  omega

theorem infer_spec (f : Func) (i : LaneInfo) :
    Stage { i with computed := [], defs := writesOf (i.region.blocksIn f) } (i.infer f).1 ∧
      Settled (i.region.blocksIn f) (i.infer f).1 ∧
      (i.infer f).2 = varyingBranches (i.region.blocksIn f) (i.infer f).1 := by
  obtain ⟨hstage, ⟨meeting, -, hfixed⟩, hknown, hbranches⟩ := (settles_infer f i).spec
  exact ⟨hstage, ⟨⟨meeting, hfixed⟩, hknown⟩, hbranches⟩

/-! ### What settled shapes say -/

theorem shapeOf_of_pinned (ht : t ∈ i.defs) (h : i.pinned.lookup t = some s) : i.shapeOf t = s := by
  simp [shapeOf, ht, h]

theorem shapeOf_of_computed (ht : t ∈ i.defs) (h : i.pinned.lookup t = none) :
    i.shapeOf t = (i.computed.lookup t).getD .unknown := by
  simp [shapeOf, ht, h]

theorem shapeOf_of_outside (ht : t ∉ i.defs) : i.shapeOf t = .uniform := by
  simp [shapeOf, ht]

namespace Settled

variable {b : Block}

/-- Every shape is known. -/
theorem shapeOf_ne_unknown (hs : Settled bs i) (hdefs : i.defs = writesOf bs)
    (hpins : ∀ t, i.pinned.lookup t ≠ some .unknown) (t : Temp) : i.shapeOf t ≠ .unknown := by
  by_cases ht : t ∈ i.defs
  · rcases hs.known t (hdefs ▸ ht) with h | h
    · simpa [LaneShape.isDefined] using h
    · cases hp : i.pinned.lookup t with
      | some s =>
        rw [shapeOf_of_pinned ht hp]
        exact fun e => hpins t (e ▸ hp)
      | none =>
        have habsorbs := absorbs_of_update_eq h hp
        rw [shapeOf_of_computed ht hp]
        intro e
        rw [e] at habsorbs
        cases habsorbs
  · simp [shapeOf_of_outside ht]

theorem shape_ne_unknown (hs : Settled bs i) (hdefs : i.defs = writesOf bs)
    (hpins : ∀ t, i.pinned.lookup t ≠ some .unknown) (v : Value) : i.shape v ≠ .unknown := by
  cases v with
  | temp t => exact hs.shapeOf_ne_unknown hdefs hpins t
  | _ => simp [LaneInfo.shape, Value.temp?]

/-- A phi absorbs what flows into it, unless lanes may come to it along different edges. -/
theorem absorbs_incoming (hs : Settled bs i) (hdefs : i.defs = writesOf bs) (hb : b ∈ bs) {p : Phi}
    (hp : p ∈ b.phis) (hpin : i.pinned.lookup p.target = none) :
    i.shapeOf p.target = .varying ∨ ∀ e ∈ p.incoming, (i.shapeOf p.target).Absorbs (i.shape e.1) := by
  obtain ⟨divergent, hfixed⟩ := hs.fixed
  have habsorbs := absorbs_of_update_eq ((hfixed b hb).phis p hp) hpin
  have ht : p.target ∈ i.defs :=
    hdefs ▸ List.mem_flatMap.mpr ⟨b, hb, List.mem_append_left _ (List.mem_map_of_mem hp)⟩
  rw [← shapeOf_of_computed ht hpin, phiShape] at habsorbs
  split at habsorbs
  · left
    rcases LaneShape.absorbs_iff.mp habsorbs with h | h | h
    · cases h
    · exact h
    · exact h.1
  · exact .inr (LaneShape.absorbs_foldl habsorbs).2

/-- The target of an instruction absorbs what the instruction makes of its operands. -/
theorem absorbs_transfer (hs : Settled bs i) (hdefs : i.defs = writesOf bs) (hb : b ∈ bs) {x : Instr}
    (hx : x ∈ b.instrs) (hw : x.write = some t) (hpin : i.pinned.lookup t = none) :
    (i.shapeOf t).Absorbs (LaneShape.transfer i.shape x) := by
  obtain ⟨divergent, hfixed⟩ := hs.fixed
  have hupdate : i.update t (LaneShape.transfer i.shape x) = i := by
    have := (hfixed b hb).instrs x hx
    rwa [passInstr, hw] at this
  have ht : t ∈ i.defs :=
    hdefs ▸ List.mem_flatMap.mpr ⟨b, hb, List.mem_append_right _ (List.mem_filterMap.mpr ⟨x, hx, hw⟩)⟩
  rw [shapeOf_of_computed ht hpin]
  exact absorbs_of_update_eq hupdate hpin

end Settled

end LaneInfo

end LoopLanes
