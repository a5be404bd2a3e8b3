/-
Loops that are left from their header alone, block by block.

The header of such a loop branches to one block of the loop and to one outside (`header_succ_unique`).  With a single
latch, the blocks behind the header stand in an order in which jumps lead forward, from the one that the header enters
to the latch: `Loop.Enclosed.threads`.
-/
import LoopLanes.Proofs.Cfg.Straightened
import LoopLanes.Proofs.Loop.Enclosed
import LoopLanes.Proofs.Vectorize.Latches

namespace LoopLanes

namespace Loop.Enclosed

variable {f : Func} {l : Loop} {header b : Block} {bs pre post : List Block} {p q r : BlockRef} {u w : Int}

/-- What is reached without being led to lies in a loop only as its header. -/
theorem not_root (h : l.Enclosed f) (hin : f.forest.contains l w = true) (hne : w ≠ l.header.number) :
    ¬ (f.flow false).root w := fun hroot =>
  (h.header_dominates hin).2 (.of_root ⟨hroot, hne⟩)

/-- Something leads to each other block of the loop. -/
theorem exists_prev (h : l.Enclosed f) (hb : b ∈ f.blocks) (hin : f.forest.contains l b.id = true)
    (hne : b.id ≠ l.header.number) : ∃ c ∈ f.blocks, b.ref ∈ c.succ := by
  obtain ⟨vs, p⟩ := Flow.reaches_iff_exists_path.mp (h.header_dominates hin).reaches
  cases p with
  | root hroot => exact absurd hroot (h.not_root hin hne)
  | step _ e =>
    obtain ⟨c, hc, -, r, hr, hnumber⟩ := e
    obtain ⟨d, hd, rfl, -⟩ := h.linked.succ c hc r hr
    exact ⟨c, hc, Func.eq_of_id_eq h.linked.nodup hd hb hnumber ▸ hr⟩

/-- The header leads to a block of its loop. -/
theorem exists_header_succ (h : l.Enclosed f) (hheader : header ∈ f.blocks) (href : header.ref = l.header) :
    ∃ r ∈ header.succ, f.forest.contains l r.number = true := by
  have hf := h.linked.toLinked
  have hid : header.id = l.header.number := congrArg BlockRef.number href
  obtain ⟨p, hp, hdom⟩ := LoopForest.exists_latch hf h.mem h.notRoot
  have hpl := LoopForest.contains_latch hf h.mem hp hdom
  rw [LoopSearch.prevs, ← href, hf.linked? hheader] at hp
  obtain ⟨c, hc, rfl, hsucc⟩ := hf.prev header hheader p hp
  by_contra hno
  have hnone : ∀ r ∈ header.succ, f.forest.contains l r.number ≠ true := fun r hr hin => hno ⟨r, hr, hin⟩
  -- so nothing of the loop but the header is reached, the latch neither
  have hkey : f.forest.contains l c.id = true → c.id = l.header.number := by
    refine hdom.reaches.induct (P := fun v => f.forest.contains l v = true → v = l.header.number)
      (fun r hr hin => ?_) fun u w _ ih e hin => ?_
    · by_contra hne
      exact h.not_root hin hne hr
    · by_contra hne
      obtain ⟨d, hd, rfl, r, hr, rfl⟩ := e
      have hu := ih (h.contains_of_edge ⟨d, hd, rfl, r, hr, rfl⟩ hin hne)
      obtain rfl := Func.eq_of_id_eq hf.nodup hd hheader (hu.trans hid.symm)
      exact hnone r hr hin
  obtain rfl := Func.eq_of_id_eq hf.nodup hc hheader ((hkey hpl).trans hid.symm)
  exact hnone _ hsucc hpl

/-- A block goes on to at most two. -/
theorem length_succ_le (hf : f.WellLinked) (hb : b ∈ f.blocks) : b.succ.length ≤ 2 := by
  obtain ⟨j, -, htargets⟩ := hf.jump b hb
  have hlength := congrArg List.length htargets
  rw [List.length_map] at hlength
  rw [hlength]
  cases j <;> simp [Instr.targets]

section Exit

variable (h : l.Enclosed f) (hexit : (l.exitingBlocks f f.forest).map (·.id) = [l.header.number])
  (hheader : header ∈ f.blocks) (href : header.ref = l.header)

include h hexit hheader href

theorem exists_exit : ∃ r ∈ header.succ, f.forest.contains l r.number = false := by
  obtain ⟨b, hb, hid⟩ := List.mem_map.mp (hexit ▸ List.mem_singleton_self l.header.number)
  obtain ⟨hmem, hleaves⟩ := List.mem_filter.mp hb
  obtain rfl := Func.eq_of_id_eq h.linked.nodup (Loop.mem_blocks.mp hmem).1 hheader
    (hid.trans (congrArg BlockRef.number href).symm)
  obtain ⟨r, hr, hout⟩ := List.any_eq_true.mp hleaves
  exact ⟨r, hr, by simpa using hout⟩

/-- The header leads to one block of the loop and to one outside. -/
theorem header_succ_unique (hp : p ∈ header.succ) (hq : q ∈ header.succ)
    (hsame : f.forest.contains l p.number = f.forest.contains l q.number) : p = q := by
  -- a third one would be on the other side
  obtain ⟨r, hr, hother⟩ : ∃ r ∈ header.succ, f.forest.contains l r.number ≠ f.forest.contains l p.number := by
    cases hin : f.forest.contains l p.number with
    | true =>
      obtain ⟨r, hr, hout⟩ := h.exists_exit hexit hheader href
      exact ⟨r, hr, by simp [hout]⟩
    | false =>
      obtain ⟨r, hr, hin⟩ := h.exists_header_succ hheader href
      exact ⟨r, hr, by simp [hin]⟩
  by_contra hne
  have hthree : [p, q, r].Nodup := by
    have hpr : p ≠ r := fun e => hother (e ▸ rfl)
    have hqr : q ≠ r := fun e => hother (e ▸ hsame.symm)
    simp [hne, hpr, hqr]
  have hle := (List.subperm_of_subset hthree (show [p, q, r] ⊆ header.succ by simp [hp, hq, hr])).length_le
  exact absurd (Nat.le_trans hle (length_succ_le h.linked hheader)) (by simp)

/-- Jumps leave the loop from its header, to one block. -/
theorem exists_leaves : ∃ x, ∀ u w, f.forest.contains l u = true → f.jumpFlow.edge u w →
    f.forest.contains l w = true ∨ u = header.id ∧ w = x := by
  obtain ⟨x, hx, hout⟩ := h.exists_exit hexit hheader href
  refine ⟨x.number, fun u w hu e => ?_⟩
  rw [← (Func.linkedByJumps_of_wellLinked h.linked).flow_eq] at e
  obtain ⟨c, hc, rfl, r, hr, rfl⟩ := e
  cases hin : f.forest.contains l r.number with
  | true => exact .inl rfl
  | false =>
    have hid := Loop.id_eq_of_exits hexit (Loop.mem_blocks.mpr ⟨hc, hu⟩) hr hin
    obtain rfl := Func.eq_of_id_eq h.linked.nodup hc hheader (hid.trans (congrArg BlockRef.number href).symm)
    exact .inr ⟨rfl, congrArg _ (h.header_succ_unique hexit hheader href hr hx (hin.trans hout.symm))⟩

/-- The blocks behind the header of a loop with a single latch, as they are sorted. -/
theorem threads (hbalanced : f.Balanced) (hlatch : l.singleLatch? f f.forest = some r) (hsub : bs ⊆ f.blocks)
    (horder : topoOrder? f ((l.body f f.forest).map Block.ref) = some (bs.map Block.ref)) : f.Threads header bs := by
  have hf := h.linked
  have hid : header.id = l.header.number := congrArg BlockRef.number href
  have hlinks := Func.linkedByJumps_of_wellLinked hf
  have hbody : ∀ b ∈ l.body f f.forest, b ∈ f.blocks := fun b hb => (Loop.mem_body.mp hb).1
  obtain ⟨hnodup, hmem, hsplits⟩ := hf.toLinked.split_of_sorted hbalanced hbody
    (hf.nodup.sublist ((List.filter_sublist.trans List.filter_sublist).map _)) hsub horder
  have hin : ∀ b ∈ bs, f.forest.contains l b.id = true ∧ b.id ≠ l.header.number := fun b hb =>
    (Loop.mem_body.mp ((hmem b).mp hb)).2
  have hcases : ∀ c ∈ f.blocks, f.forest.contains l c.id = true → c = header ∨ c ∈ bs := by
    intro c hc hcl
    by_cases hch : c.id = l.header.number
    · exact .inl (Func.eq_of_id_eq hf.nodup hc hheader (hch.trans hid.symm))
    · exact .inr ((hmem c).mpr (Loop.mem_body.mpr ⟨hc, hcl, hch⟩))
  have hfrom : ∀ b ∈ bs, ∀ c ∈ f.blocks, b.ref ∈ c.succ → c = header ∨ c ∈ bs := fun b hb c hc hsucc =>
    hcases c hc (h.contains_of_edge ⟨c, hc, rfl, b.ref, hsucc, rfl⟩ (hin b hb).1 (hin b hb).2)
  -- the only block that goes back to the header is the last one
  have hlast : ∀ pre b, bs = pre ++ [b] → header.ref ∈ b.succ := by
    rintro pre b rfl
    obtain ⟨c, hc, e, p, hp, hnumber⟩ := LoopForest.header_mem_succ_of_getLast? hf.toLinked hbalanced h.mem h.notRoot
      horder (r := b.ref) (by simp)
    obtain rfl := Func.eq_of_id_eq hf.nodup (hbody c hc) (hsub (by simp)) (congrArg BlockRef.number e)
    obtain ⟨d, hd, rfl, -⟩ := hf.succ c (hbody c hc) p hp
    exact Func.eq_of_id_eq hf.nodup hd hheader (hnumber.trans hid.symm) ▸ hp
  have hback : ∀ b ∈ bs, header.ref ∈ b.succ → b.id = r.number := by
    intro b hb hsucc
    have hprev : b.ref ∈ l.headerPrev f := by
      rw [Loop.headerPrev, ← href, hf.toLinked.linked? hheader]
      exact (hf.mem_prev_iff (hsub hb) hheader).mpr hsucc
    exact (Loop.singleLatch?_eq_some hlatch).2 b.ref hprev (hin b hb).1
  refine { formed := Func.formedByJumps_of_verify h.verified, header_mem := hheader,
           header_notMem := fun hb => (hin header hb).2 hid, sub := hsub, nodup := hnodup,
           live := fun b hb => hlinks.flow_eq ▸ (h.header_dominates (hin b hb).1).reaches,
           root := fun b hb => hlinks.flow_eq ▸ h.not_root (hin b hb).1 (hin b hb).2,
           entered := fun pre b post hsplit c hc hl => ?_, goesOn := fun pre b post hsplit k hk => ?_ }
  · have hb : b ∈ bs := by simp [hsplit]
    have hsucc := (hlinks.mem_succ_iff hf.nodup hc (hsub hb)).mpr hl
    rcases hfrom b hb c hc hsucc with rfl | hcbs
    · refine .inl ⟨rfl, ?_⟩
      rcases pre with _ | ⟨a, pre⟩
      · rfl
      -- the first block is entered from the header as well
      have ha : a ∈ bs := by simp [hsplit]
      obtain ⟨d, hd, hda⟩ := h.exists_prev (hsub ha) (hin a ha).1 (hin a ha).2
      rcases hfrom a ha d hd hda with rfl | hdbs
      · have e := h.header_succ_unique hexit hheader href hda hsucc ((hin a ha).1.trans (hin b hb).1.symm)
        obtain rfl := Func.eq_of_id_eq hf.nodup (hsub ha) (hsub hb) (congrArg BlockRef.number e)
        simp [hsplit] at hnodup
      · exact absurd ((hsplits [] a (pre ++ b :: post) hsplit d hdbs).1 hda) List.not_mem_nil
    · exact .inr ((hsplits pre b post hsplit c hcbs).1 hsucc)
  · have hb : b ∈ bs := by simp [hsplit]
    obtain ⟨c, hc, rfl⟩ := hf.exists_target (hsub hb) hk
    have hsucc := (hlinks.mem_succ_iff hf.nodup (hsub hb) hc).mpr hk
    have hcl : f.forest.contains l c.id = true := by
      by_contra hout
      exact (hin b hb).2 (Loop.id_eq_of_exits hexit (Loop.mem_blocks.mpr ⟨hsub hb, (hin b hb).1⟩) hsucc
        (Bool.eq_false_iff.mpr hout))
    rcases hcases c hc hcl with rfl | hcbs
    · refine .inl ⟨rfl, ?_⟩
      rcases List.eq_nil_or_concat' post with rfl | ⟨mid, z, rfl⟩
      · rfl
      have hz : z ∈ bs := by simp [hsplit]
      have e := (hback b hb hsucc).trans (hback z hz (hlast (pre ++ b :: mid) z (by simp [hsplit]))).symm
      obtain rfl := Func.eq_of_id_eq hf.nodup (hsub hb) (hsub hz) e
      simp [hsplit, List.nodup_append] at hnodup
    · exact .inr ⟨c, (hsplits pre b post hsplit c hcbs).2 hsucc, rfl⟩

end Exit

end Loop.Enclosed

end LoopLanes
