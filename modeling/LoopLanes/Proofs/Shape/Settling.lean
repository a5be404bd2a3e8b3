/-
What inference leaves.

Propagation, settling and the step to lanes that meet are repeated until none of them changes anything, so
the shapes that are left are a fixpoint of all three at once.

* `Inferred` — the shapes and the branches that inference answers with;
* **`settles_inferred_of_pinned`** — inference comes to an end, and leaves such shapes, as long as nothing is
  pinned to be unknown.
-/
import LoopLanes.Proofs.Shape.Fixpoint

namespace LoopLanes

/-- What varies stays as it is. -/
theorem LaneShape.varying_absorbs (a : LaneShape) : LaneShape.varying.Absorbs a := by
  rw [absorbs_iff]
  by_cases h : a = unknown
  · exact .inl h
  · exact .inr (.inr ⟨rfl, h⟩)

namespace LaneInfo

variable {f : Func} {i j : LaneInfo} {t : Temp} {bs : List Block} {branches : List Int}

/-- The shape that a phi takes from outside: that of all it takes in, or one that varies where lanes meet.
They meet at a block with several predecessors, the header apart, once a branch varies. -/
def entering (j : LaneInfo) (branches : List Int) (b : Block) (p : Phi) : LaneShape :=
  if branches ≠ [] ∧ b.id ≠ j.region.header.number ∧ 1 < b.prev.length then .varying
  else p.incoming.foldl (fun s e => s.join (j.shape e.1)) .unknown

/-- Whether a block ends with a branch on a condition that may differ between lanes. -/
def branchesApart (j : LaneInfo) (b : Block) : Bool :=
  match b.jump with
  | some (.branch _ cond _ _) => !(j.shape cond).isUniform
  | _ => false

/-- What inference leaves: pins stand, everything else is known, nothing grows any more, and the branches are
those that are not uniform. -/
structure Inferred (bs : List Block) (i j : LaneInfo) (branches : List Int) : Prop where
  region : j.region = i.region
  pinned : j.pinned = i.pinned
  shapeOf_pinned : ∀ t ∈ writesOf bs, ∀ s, i.pinned.lookup t = some s → j.shapeOf t = s
  defined : ∀ t ∈ writesOf bs, i.pinned.lookup t = none → (j.shapeOf t).isDefined = true
  instr : ∀ b ∈ bs, ∀ x ∈ b.instrs, ∀ t, x.write = some t → i.pinned.lookup t = none →
    (j.shapeOf t).join (LaneShape.transfer j.shape x) = j.shapeOf t
  phi : ∀ b ∈ bs, ∀ p ∈ b.phis, i.pinned.lookup p.target = none →
    (j.shapeOf p.target).join (j.entering branches b p) = j.shapeOf p.target
  branches : branches = (bs.filter j.branchesApart).map (·.id)

theorem Settles.inferred (h : Settles bs false { i with computed := [], defs := writesOf bs } j branches)
    (hpins : ∀ t, i.pinned.lookup t ≠ some .unknown) : Inferred bs i j branches := by
  obtain ⟨hstage, ⟨meeting, hmeeting, hfixed⟩, hknown, hbranches⟩ := h.spec
  have hs : Settled bs j := ⟨⟨meeting, hfixed⟩, hknown⟩
  have hdefs : j.defs = writesOf bs := hstage.defs
  have hpinned : j.pinned = i.pinned := hstage.pinned
  have hne := hs.shape_ne_unknown hdefs (hpinned ▸ hpins)
  refine ⟨hstage.region, hpinned, fun t ht s hp => ?_, fun t ht _ => ?_, fun b hb x hx t hw hp => ?_,
    fun b hb p hp hpin => ?_, ?_⟩
  · exact shapeOf_of_pinned (hdefs ▸ ht) (hpinned ▸ hp)
  · simpa [LaneShape.isDefined] using hs.shapeOf_ne_unknown hdefs (hpinned ▸ hpins) t
  · exact hs.absorbs_transfer hdefs hb hx hw (hpinned ▸ hp)
  · have habsorbs := absorbs_of_update_eq ((hfixed b hb).phis p hp) (hpinned ▸ hpin)
    have ht : p.target ∈ j.defs :=
      hdefs ▸ List.mem_flatMap.mpr ⟨b, hb, List.mem_append_left _ (List.mem_map_of_mem hp)⟩
    rw [← shapeOf_of_computed ht (hpinned ▸ hpin), phiShape] at habsorbs
    cases hmerges : j.merges meeting b with
    | true =>
      -- where lanes were taken to meet the shape varies, whatever comes in
      rw [hmerges, if_pos rfl] at habsorbs
      have hvaries : j.shapeOf p.target = .varying := by
        rcases LaneShape.absorbs_iff.mp habsorbs with h | h | h
        · cases h
        · exact h
        · exact h.1
      rw [hvaries]
      exact LaneShape.varying_absorbs _
    | false =>
      rw [hmerges, if_neg Bool.false_ne_true] at habsorbs
      have hapart : ¬ (branches ≠ [] ∧ b.id ≠ j.region.header.number ∧ 1 < b.prev.length) := by
        rintro ⟨hb, hid, hprev⟩
        simp [merges, hmeeting hb, hid, hprev] at hmerges
      rw [entering, if_neg hapart]
      exact habsorbs
  · rw [hbranches, varyingBranches]
    refine congrArg (List.map _) (List.filter_congr fun b _ => ?_)
    unfold branchesApart
    cases b.jump with
    | none => rfl
    | some x =>
      cases x with
      | branch ty cond yes no => simp [LaneShape.isDefined, hne cond]
      | _ => rfl

/-- Inference comes to an end, and leaves a fixpoint of all that it does. -/
theorem settles_inferred_of_pinned (f : Func) (i : LaneInfo) (hpins : ∀ t, i.pinned.lookup t ≠ some .unknown) :
    Settles (i.region.blocksIn f) false { i with computed := [], defs := writesOf (i.region.blocksIn f) }
        (i.infer f).1 (i.infer f).2 ∧
      Inferred (i.region.blocksIn f) i (i.infer f).1 (i.infer f).2 :=
  ⟨settles_infer f i, (settles_infer f i).inferred hpins⟩

/-- Counts up, and takes one of two ways to the end of the round. -/
def parting : Func :=
  let i : Temp := .ofLocal "i" .i32
  let next : Temp := .ofLocal "next" .i32
  let small : Temp := .ofLocal "small" .i32
  let choice : Temp := .ofLocal "choice" .i32
  let own : Temp := .ofLocal "own" .i32
  { total := 4
    name := "parting"
    retTy := .i32
    params := []
    blocks := [
      { Block.ofId 0 with succ := [.last 1], jump := some (.jump (.ofBlock 1)) },
      { Block.ofId 1 with
        prev := [.last 0, .last 4]
        succ := [.last 2]
        phis := [.ofTarget i [(.int 0, .ofBlock 0), (.temp next, .ofBlock 4)],
          .ofTarget own [(.temp own, .ofBlock 0), (.temp own, .ofBlock 4)]]
        jump := some (.jump (.ofBlock 2)) },
      { Block.ofId 2 with
        prev := [.last 1]
        succ := [.last 3, .last 4]
        instrs := [.comp small .icmp .slt .i32 (.temp i) (.int 7)]
        jump := some (.branch .i32 (.temp small) (.ofBlock 3) (.ofBlock 4)) },
      { Block.ofId 3 with prev := [.last 2], succ := [.last 4], jump := some (.jump (.ofBlock 4)) },
      { Block.ofId 4 with
        prev := [.last 2, .last 3]
        succ := [.last 1]
        phis := [.ofTarget choice [(.int 1, .ofBlock 2), (.int 2, .ofBlock 3)]]
        instrs := [.arith next .add .i32 (.temp i) (.int 1)]
        jump := some (.jump (.ofBlock 1)) }] }

/-- The loop of `parting`, with its counter pinned. -/
def parted : LaneInfo :=
  (ofRegion parting 4 ⟨.last 1, [.last 1, .last 2, .last 3, .last 4], []⟩).pin (.ofLocal "i" .i32) (.strided 1)

/-- The test of the counter varies, and so do the phi where the lanes meet again and the phi that depends on
nothing but itself. -/
theorem settles_inferred_of_parted : (∀ t, parted.pinned.lookup t ≠ some .unknown) ∧ ∃ j : LaneInfo,
    Settles (parted.region.blocksIn parting) false
        { parted with computed := [], defs := writesOf (parted.region.blocksIn parting) } j [2] ∧
      Inferred (parted.region.blocksIn parting) parted j [2] ∧
      j.shapeOf (.ofLocal "i" .i32) = .strided 1 ∧ j.shapeOf (.ofLocal "next" .i32) = .strided 1 ∧
      j.shapeOf (.ofLocal "choice" .i32) = .varying ∧ j.shapeOf (.ofLocal "own" .i32) = .varying := by
  have hpins : ∀ t, parted.pinned.lookup t ≠ some .unknown := by
    intro t
    simp only [parted, pin, ofRegion, List.lookup_cons, List.lookup_nil]
    split <;> simp
  have hbranches : (parted.infer parting).2 = [2] := by decide +kernel
  obtain ⟨hsettles, hinferred⟩ := settles_inferred_of_pinned parting parted hpins
  rw [hbranches] at hsettles hinferred
  exact ⟨hpins, _, hsettles, hinferred, by decide +kernel⟩

end LaneInfo

end LoopLanes
