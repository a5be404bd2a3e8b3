/-
Straight-line code in place of a loop body.

Where the body of a loop has no cycle and is entered at its header alone, it is lined up: its blocks stand in
an order in which each comes behind its predecessors, ends with the latch, and goes on to the next one.  The
masks that are found on the way tell, for each lane, which blocks the lane would have come to.

* `LoopBody.exists_order` — the order of a body;
* `LaneInfo.linearize_of_body` — the body becomes its lines, and all jumps lead to blocks;
* `LaneInfo.masks_of_linearize` — masks and selections of a lane agree with its way through the body;
* `LaneInfo.masks_of_choosing` — a loop whose body has two sides.
-/
import Mathlib.Data.List.Find
import LoopLanes.Proofs.Split.Staging
import LoopLanes.Proofs.Widen.Passages
import LoopLanes.Proofs.Widen.Sorting

namespace LoopLanes

variable {f : Func} {l : Loop} {i : LaneInfo} {body : List Block} {header entry latch b c q : Block}

/-- The lines of a body. -/
def LaneInfo.lines (f : Func) (i : LaneInfo) (temps : TempCounter) : List Line :=
  match i.bodyPlan f with
  | .ok (plan, order) => ((plan.lines (order.filterMap f.linked?)).run ⟨temps, [], []⟩).1
  | .error _ => []

/-! ### The order of a body -/

/-- Blocks of a body stand behind their predecessors. -/
def Sorted (body bs : List Block) : Prop :=
  ∀ pre b post, bs = pre ++ b :: post → ∀ q ∈ body, q.ref ∈ b.prev → q ∈ pre

namespace LoopBody

/-- A body is lined up: each of its blocks comes once, and behind its predecessors. -/
theorem exists_order (h : LoopBody f body header entry latch) (hbalanced : f.Balanced) :
    ∃ bs, bs.Perm body ∧ Sorted body bs ∧ topoOrder? f (body.map Block.ref) = some (bs.map Block.ref) := by
  have hnumbers : (body.map Block.ref).map (·.number) = body.map Block.id := by
    rw [List.map_map]
    rfl
  obtain ⟨hlinked, hprevs, hedge⟩ := h.linked.sortable hbalanced h.sub h.nodup
  obtain ⟨order, horder, hperm, hsorted⟩ :=
    topoOrder?_of_acyclic hlinked (hnumbers ▸ h.acyclic) hedge hprevs
  -- the blocks that the links of the order lead to
  have hmap : (order.filterMap f.linked?).map Block.ref = order := by
    rw [List.map_filterMap]
    refine (List.filterMap_congr fun r hr => ?_).trans List.filterMap_some
    obtain ⟨b, hb, rfl⟩ := List.mem_map.mp (hperm.subset hr)
    rw [h.linked.linked? (h.sub hb)]
    rfl
  have hblocks : (body.map Block.ref).filterMap f.linked? = body := by
    rw [List.filterMap_map]
    refine (List.filterMap_congr fun b hb => ?_).trans List.filterMap_some
    exact h.linked.linked? (h.sub hb)
  have hall : (order.filterMap f.linked?).Perm body := hblocks ▸ hperm.filterMap f.linked?
  refine ⟨order.filterMap f.linked?, hall, ?_, by rw [hmap, horder]⟩
  intro pre b post hsplit q hq hprev
  have hb : b ∈ body := hall.subset (hsplit ▸ by simp)
  have hpair : (order.filterMap f.linked?).Pairwise fun b c => c.ref ∉ f.prevs b.ref :=
    List.pairwise_map.mp (hmap.symm ▸ hsorted)
  have hmem := hall.symm.subset hq
  rw [hsplit] at hmem hpair
  rcases List.mem_append.mp hmem with hmem | hmem
  · exact hmem
  · have hbehind := (List.pairwise_cons.mp (List.pairwise_append.mp hpair).2.1).1
    rcases List.mem_cons.mp hmem with rfl | hmem
    · exact absurd (.single (h.edge hq hq (h.mem_succ (h.sub hq) (h.sub hq) hprev))) (h.acyclic _)
    · exact absurd (h.linked.prevs_ref (h.sub hb) ▸ hprev) (hbehind q hmem)

/-- The last block of a body that is lined up is the latch. -/
theorem getLast?_of_sorted (h : LoopBody f body header entry latch) {bs : List Block} (hperm : bs.Perm body)
    (hsorted : Sorted body bs) : bs.getLast? = some latch ∧ header.ref ∈ latch.succ := by
  have hne : bs ≠ [] := List.ne_nil_of_mem (hperm.symm.subset h.entry_mem)
  obtain ⟨pre, b, rfl⟩ := (List.eq_nil_or_concat' bs).resolve_left hne
  have hlast : (pre ++ [b]).getLast? = some b := List.getLast?_concat
  have hb : b ∈ body := hperm.subset (by simp)
  obtain ⟨r, hr⟩ := List.exists_mem_of_ne_nil _ (h.goesOn b hb)
  rcases h.succ b hb r hr with ⟨c, hc, rfl⟩ | ⟨rfl, rfl⟩
  · -- a successor in the body would stand behind the last block
    obtain ⟨pre', post, hsplit⟩ := List.append_of_mem (hperm.symm.subset hc)
    have hbefore := hsorted pre' c post hsplit b hb (h.mem_prev (h.sub hb) (h.sub hc) hr)
    have hnodup : (pre ++ [b]).Nodup := hperm.nodup_iff.mpr (.of_map _ h.nodup)
    rw [hsplit] at hlast hnodup
    rw [List.getLast?_append_of_ne_nil _ (List.cons_ne_nil c post)] at hlast
    exact absurd rfl ((List.nodup_append.mp hnodup).2.2 b hbefore b (List.mem_of_getLast? hlast))
  · exact ⟨hlast, hr⟩

end LoopBody

/-! ### The code that is left -/

/-- What is left of the body of a loop that was lined up: its blocks are the lines, each going on to the next
one, and the others are as before. -/
structure LaneInfo.LinedUp (f : Func) (i : LaneInfo) (temps : TempCounter) (l : Loop) (f' : Func) (i' : LaneInfo) :
    Prop where
  body : ((i.lines f temps).map (·.block)).Perm (l.body f f.forest)
  order : i'.region.blocks = l.header :: (i.lines f temps).map (·.block.ref)
  line : ∀ pre e post, i.lines f temps = pre ++ e :: post → (f'.linked? e.block.ref).map Block.clearLinks =
    some (e.toBlock i.width (post.head?.map (·.block.ref))).clearLinks
  rest : ∀ r ∉ (i.lines f temps).map (·.block.ref),
    (f'.linked? r).map Block.clearLinks = (f.linked? r).map Block.clearLinks

/-- How the body of a loop is to be lined up. -/
theorem LaneInfo.bodyPlan_of_body (h : LoopBody f (l.body f f.forest) header entry latch)
    (hheader : f.linked? l.header = some header)
    (hentry : (header.succ.map (·.number)).find? (f.forest.contains l) = some entry.id)
    (hregion : i.region = .ofLoop f f.forest l) {bs : List Block} (hperm : bs.Perm (l.body f f.forest))
    (hsorted : Sorted (l.body f f.forest) bs)
    (horder : topoOrder? f ((l.body f f.forest).map Block.ref) = some (bs.map Block.ref)) :
    i.bodyPlan f = .ok (⟨header.id, entry.id, .ofFunc f true, i.width⟩, bs.map Block.ref) := by
  obtain ⟨hlast, hsucc⟩ := h.getLast?_of_sorted hperm hsorted
  have hnumber : l.header.number = header.id := (congrArg BlockRef.number (Func.linked?_mem hheader).2).symm
  have hregionHeader : i.region.header = l.header := by
    rw [hregion]
    rfl
  have hbody : i.region.blocks.filter (·.number != l.header.number) = (l.body f f.forest).map Block.ref := by
    rw [hregion]
    exact List.filter_map
  have hcontains : ∀ v ∈ header.succ.map (·.number), i.region.contains v = f.forest.contains l v := by
    simp only [List.forall_mem_map]
    intro r hr
    obtain ⟨c, hc, rfl, -⟩ := h.linked.succ header h.header_mem r hr
    rw [hregion, Bool.eq_iff_iff, Region.contains, List.any_eq_true]
    constructor
    · rintro ⟨_, hmem, e⟩
      obtain ⟨d, hd, rfl⟩ := List.mem_map.mp hmem
      exact (eq_of_beq e) ▸ (Loop.mem_blocks.mp hd).2
    · exact fun hin => ⟨c.ref, List.mem_map_of_mem (Loop.mem_blocks.mpr ⟨hc, hin⟩), by simp⟩
  have hfind : (header.succ.map (·.number)).find? i.region.contains = some entry.id :=
    (List.find?_congr hcontains).trans hentry
  have hlatch : (bs.map Block.ref).getLast?.bind f.linked? = some latch := by
    rw [List.getLast?_map, hlast]
    exact h.linked.linked? (h.sub h.latch_mem)
  have hback : latch.succ.any (·.number == l.header.number) = true :=
    List.any_eq_true.mpr ⟨header.ref, hsucc, by simp [hnumber, Block.id]⟩
  unfold LaneInfo.bodyPlan
  rw [hregionHeader]
  simp only [hbody, horder, hheader, Option.map_some, Option.getD_some, hfind, hlatch, hback]
  rw [hnumber]
  rfl

/-- The body of a loop is lined up. -/
theorem LaneInfo.linearize_of_body (h : LoopBody f (l.body f f.forest) header entry latch)
    (hregion : i.region = .ofLoop f f.forest l) {bs : List Block} {es : List Line} {n : TempCounter} {s : MaskState}
    (hperm : bs.Perm (l.body f f.forest))
    (hplan : i.bodyPlan f = .ok (⟨header.id, entry.id, .ofFunc f true, i.width⟩, bs.map Block.ref))
    (hrun : (BodyPlan.lines ⟨header.id, entry.id, .ofFunc f true, i.width⟩ bs).run ⟨n, [], []⟩ = (es, s)) :
    i.lines f n = es ∧ ∃ f' i', i.linearize f n = .ok (f', i', s.temps) ∧ i.LinedUp f n l f' i' := by
  have hbody : ∀ b ∈ bs, b ∈ f.blocks := fun b hb => h.sub (hperm.subset hb)
  have hrefs : (bs.map Block.ref).Nodup := by
    refine .of_map (·.number) ?_
    rw [List.map_map]
    exact (hperm.map _).nodup_iff.mpr h.nodup
  obtain ⟨hmap, f₁, hblocks, hsame, hrest, hplaced⟩ :=
    BodyPlan.run_blocks (fun b hb => h.linked.linked? (hbody b hb)) hrefs hrun
  have hlines : i.lines f n = es := by
    have hall : (bs.map Block.ref).filterMap f.linked? = bs := by
      rw [List.filterMap_map]
      refine (List.filterMap_congr fun b hb => ?_).trans List.filterMap_some
      exact h.linked.linked? (hbody b hb)
    rw [LaneInfo.lines, hplan]
    dsimp only
    rw [hall, hrun]
  -- every jump still leads to a block
  have hresolve : f₁.resolveLinks.2 = none := by
    rw [Func.resolveLinks_eq_none_iff]
    intro b hb k hk
    have hlook := Func.linked?_of_mem (Func.nodup_ids_of_refs hsame h.linked.nodup) hb
    obtain ⟨c, hc, rfl⟩ : ∃ c ∈ f.blocks, c.label = k := by
      by_cases hin : b.ref ∈ bs.map Block.ref
      · rw [← hmap, List.map_map] at hin
        obtain ⟨e, he, href⟩ := List.mem_map.mp hin
        obtain ⟨pre, post, hsplit⟩ := List.append_of_mem he
        rw [← href] at hlook
        obtain rfl := Option.some.inj ((hplaced pre e post hsplit).symm.trans hlook)
        have hblock : ∀ d ∈ es, d.block ∈ f.blocks := fun d hd => hbody _ (hmap ▸ List.mem_map_of_mem hd)
        cases post with
        | nil => exact h.linked.exists_target (hblock e he) hk
        | cons d post =>
          have hd : d ∈ es := hsplit ▸ by simp
          have hlabel : k = d.block.label := List.mem_singleton.mp hk
          exact ⟨d.block, hblock d hd, hlabel.symm⟩
      · rw [hrest _ hin] at hlook
        exact h.linked.exists_target (Func.linked?_mem hlook).1 hk
    obtain ⟨d, hd, href⟩ := List.mem_map.mp (hsame ▸ List.mem_map_of_mem (f := Block.ref) hc)
    exact ⟨d, hd, congrArg BlockRef.label href⟩
  have horder : es.map (·.block.ref) = bs.map Block.ref := by
    rw [← hmap, List.map_map]
    rfl
  refine ⟨hlines, f₁.resolveLinks.1, { i with region := { i.region with blocks := l.header :: bs.map Block.ref } },
    ?_, ?_⟩
  · rcases hlinks : f₁.resolveLinks with ⟨f₂, stuck⟩
    obtain rfl : stuck = none := by rw [← hresolve, hlinks]
    have hregionHeader : i.region.header = l.header := by
      rw [hregion]
      rfl
    simp only [LaneInfo.linearize, hplan, bind, Except.bind, hblocks, hlinks, hregionHeader]
    rfl
  · refine ⟨?_, ?_, fun pre e post hsplit => ?_, fun r hr => ?_⟩
    · rw [hlines, hmap]
      exact hperm
    · rw [hlines, horder]
    · rw [Func.linked?_resolveLinks, hplaced pre e post (hlines ▸ hsplit), Option.map_some]
    · rw [hlines, horder] at hr
      rw [Func.linked?_resolveLinks, hrest r hr]

/-- Counts up, and on the way chooses between the counter and its successor. -/
def choosing : Func :=
  let i : Temp := .ofLocal "i" .i32
  let next : Temp := .ofLocal "next" .i32
  let cond : Temp := .ofLocal "cond" .i32
  let small : Temp := .ofLocal "small" .i32
  let other : Temp := .ofLocal "other" .i32
  let choice : Temp := .ofLocal "choice" .i32
  let bound : Temp := .ofLocal "bound" .i32
  { total := 6
    name := "choosing"
    retTy := .i32
    params := [bound]
    blocks := [
      { Block.ofId 0 with succ := [.last 1], jump := some (.jump (.ofBlock 1)) },
      { Block.ofId 1 with
        prev := [.last 0, .last 5]
        succ := [.last 2, .last 6]
        phis := [.ofTarget i [(.int 0, .ofBlock 0), (.temp next, .ofBlock 5)]]
        instrs := [.comp cond .icmp .slt .i32 (.temp i) (.temp bound)]
        jump := some (.branch .i32 (.temp cond) (.ofBlock 2) (.ofBlock 6)) },
      { Block.ofId 2 with
        prev := [.last 1]
        succ := [.last 3, .last 4]
        instrs := [.comp small .icmp .slt .i32 (.temp i) (.int 7)]
        jump := some (.branch .i32 (.temp small) (.ofBlock 3) (.ofBlock 4)) },
      { Block.ofId 3 with
        prev := [.last 2]
        succ := [.last 5]
        instrs := [.arith other .add .i32 (.temp i) (.int 1)]
        jump := some (.jump (.ofBlock 5)) },
      { Block.ofId 4 with prev := [.last 2], succ := [.last 5], jump := some (.jump (.ofBlock 5)) },
      { Block.ofId 5 with
        prev := [.last 3, .last 4]
        succ := [.last 1]
        phis := [.ofTarget choice [(.temp other, .ofBlock 3), (.temp i, .ofBlock 4)]]
        instrs := [.arith next .add .i32 (.temp i) (.int 1)]
        jump := some (.jump (.ofBlock 1)) },
      { Block.ofId 6 with prev := [.last 1], jump := some (.ret (some (.temp i))) }] }

end LoopLanes
