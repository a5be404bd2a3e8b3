/-
Splits and what is cut off.

A plan is put in around a loop.  Where a set of blocks is cut off from the rest of the function and has
no block of the loop, it is cut off from the new blocks as well.

* `cutOff_placed` — the function with the new blocks of a split;
* `insulated_commit` — the function that a commit leaves.
-/
import LoopLanes.Proofs.Loop.CutOff
import LoopLanes.Proofs.Split.Commit

namespace LoopLanes

namespace SplitPlan

variable {f g : Func} {t : LoopForest} {l : Loop} {a : LoopAnatomy} {lanes : Int}
  {updates : List StrideUpdate} {s : SplitParts} {n n' : TempCounter} {x : Choice} {D : Int → Prop} {v k : Int}

/-- Only blocks of the loop have copies. -/
theorem Staged.exists_original (hx : Staged f t l a lanes updates n s n' x) (h : x.clone.block? v = some k) :
    ∃ b ∈ l.blocks f t, b.id = v := by
  obtain ⟨_, _, _, -, -, hclone, -⟩ := hx.guard
  have hkey : v ∈ x.clone.blockMap.map (·.1) :=
    List.mem_map_of_mem (f := fun e : Int × Int => e.1) (mem_of_lookup h)
  rw [LoopClone.map_fst_blockMap hclone, List.mem_reverse] at hkey
  exact List.mem_map.mp hkey

/-- The new blocks of a split are put in beside what is cut off. -/
theorem cutOff_placed (hf : f.CutOff D) (hx : Staged f t l a lanes updates n s n' x)
    (hblocks : ∀ b ∈ l.blocks f t, ¬ D b.id) : (placed l.header s f).CutOff D := by
  have hnodup : ((l.blocks f t).map Block.id).Nodup := hf.distinct.sublist (List.filter_sublist.map _)
  obtain ⟨hids, hbetween⟩ := hx.ids_spec hnodup
  have hnew : ∀ b ∈ s.blocks, Choice.guardId f ≤ b.id ∧ b.id ≤ Choice.joiningId f t l := fun b hb =>
    hbetween b.id (hx.map_id ▸ List.mem_map_of_mem hb)
  have hfresh : ∀ b ∈ s.blocks, ¬ D b.id := fun b hb => hf.not_fresh (Int.lt_of_add_one_le (hnew b hb).1)
  have hheader := hx.exists_original hx.header
  have hheader_out : ¬ D l.header.number := by
    obtain ⟨b, hb, e⟩ := hheader
    exact e ▸ hblocks b hb
  have hhead : s.blocks.head? = some (x.guardBlock f) := by rw [hx.blocks]; rfl
  refine ⟨nodup_placed hf.distinct hf.total (hx.map_id ▸ hids) (hx.map_id ▸ fun i hi => (hbetween i hi).1),
    fun b hb => ?_, fun v hv => Int.le_trans (hf.low v hv) (Int.le_max_left ..), fun i hi => ?_,
    fun b hb w hw => ?_⟩
  · rcases mem_placed.mp hb with hb | ⟨c, hc, rfl⟩
    · exact Int.le_trans (hx.total ▸ (hnew b hb).2) (Int.le_max_right ..)
    · rw [show (rewired l.header s c).id = c.id from congrArg BlockRef.number (ref_rewired ..)]
      exact Int.le_trans (hf.total c hc) (Int.le_max_left ..)
  · -- the first block is the one of before, or the guard in front of a loop that starts the function
    have hguard : ¬ D (x.guardBlock f).id := hfresh _ (List.mem_of_mem_head? hhead)
    cases hplace : (f.position? l.header.number).getD 0 with
    | zero =>
      rw [placed, hplace, List.take_zero, List.nil_append, List.head?_map, List.head?_append, hhead] at hi
      obtain rfl : (x.guardBlock f).id = i := by simpa using hi
      exact hguard
    | succ place =>
      cases hbs : f.blocks with
      | nil => simp [Func.position?, hbs] at hplace
      | cons c cs =>
        rw [placed, hplace, hbs] at hi
        obtain rfl : c.id = i := by
          have := congrArg BlockRef.number (ref_rewired l.header s c)
          simpa [Block.id, this] using hi
        exact hf.entry c.id (by simp [hbs])
  · rcases mem_placed.mp hb with hb | ⟨c, hc, rfl⟩
    · refine ⟨fun hd => absurd hd (hfresh b hb), fun hd => absurd hd ?_⟩
      rcases hx.targets hnodup hheader (hx.exists_original hx.body) hb hw with ⟨d, hd, e⟩ | e | ⟨c, hc, hw⟩
      · exact Label.ofBlock_injective e ▸ hfresh d hd
      · exact Label.ofBlock_injective e ▸ hheader_out
      · exact fun hd => hblocks c hc ((hf.jump c (Loop.mem_blocks.mp hc).1 w hw).mpr hd)
    · rw [show (rewired l.header s c).id = c.id from congrArg BlockRef.number (ref_rewired ..)]
      rcases targets_rewired hw with hw | ⟨e, hw⟩
      · exact hf.jump c hc w hw
      · -- the entering block jumped to the header before
        rw [hhead, Option.map_some, Option.getD_some] at e
        rw [hf.jump c hc _ hw, Label.ofBlock_injective e]
        exact iff_of_false hheader_out (hfresh _ (List.mem_of_mem_head? hhead))

/-- A plan is put in beside what is cut off. -/
theorem insulated_commit {width alignment : Nat} {r : Recurrences} {plan : SplitPlan} {prepared : PreparedLoop}
    (hf : f.Insulated D) (h : Gives (make f t l width alignment r) n plan n')
    (hblocks : ∀ b ∈ l.blocks f t, ¬ D b.id) (hcommit : plan.commit f = .ok (prepared, g)) : g.Insulated D := by
  cases hk : plan.kind with
  | inPlace latch updates cond =>
    rw [commit, hk] at hcommit
    obtain ⟨-, rfl⟩ := Prod.mk.inj (Except.ok.inj hcommit)
    have hadvance := Func.SameOutline.modify f latch (φ := advance updates id) fun _ => rfl
    exact hf.of_sameOutline (hadvance.trans (.modify _ _ fun _ => rfl))
  | split s =>
    obtain ⟨hheader, a, updates, k, -, -, hparts⟩ := found_of_make h hk
    have hnodup : ((l.blocks f t).map Block.id).Nodup := hf.distinct.sublist (List.filter_sublist.map _)
    obtain ⟨x, hx⟩ := staged_of_splitParts hnodup hparts
    have hplaced := cutOff_placed hf.toCutOff hx hblocks
    rw [commit_split hk, hheader] at hcommit
    split at hcommit
    · cases hcommit
    · rename_i g' hresolve
      obtain ⟨-, rfl⟩ := Prod.mk.inj (Except.ok.inj hcommit)
      have := hplaced.resolveLinks (by rw [hresolve])
      rwa [hresolve] at this

end SplitPlan

end LoopLanes
