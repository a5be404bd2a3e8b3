/-
Vector code that verification accepts.

A loop that is left from its header alone and has a single latch is widened to a function that verification accepts,
as long as its phis take in values of their own types and, where its body has to be lined up, the body branches on
words: `Loop.Enclosed.verify_lowered`.

* `Loop.Enclosed.sound_of_body` — the blocks of the body are as lining up needs them;
* `LaneInfo.Lined.straightens` — the lines follow one another;
* `LaneInfo.Lined.workable` — so there is room for new names in the function that is left, too.
-/
import LoopLanes.Proofs.Vectorize.Escapes
import LoopLanes.Proofs.Vectorize.Threaded
import LoopLanes.Proofs.Widen.Folded

namespace LoopLanes

variable {f f' g lined : Func} {l : Loop} {i i' : LaneInfo} {n n' k : TempCounter} {header b : Block} {es : List Line}
  {t : Temp} {r : BlockRef} {known : Block → Temp → Prop} {lowered : Lowering}

/-! ### Blocks in the places of others -/

/-- What stands in the place of a block in another function. -/
def Func.inPlaceOf (g : Func) (b : Block) : Block := (g.linked? b.ref).getD b

/-- Blocks with the same links stand in the places of one another. -/
theorem Func.blocks_eq_map_inPlaceOf (hnodup : (g.blocks.map Block.id).Nodup)
    (hrefs : g.blocks.map Block.ref = f.blocks.map Block.ref) : g.blocks = f.blocks.map g.inPlaceOf := by
  have hall : ∀ c ∈ g.blocks, g.linked? c.ref = some c := fun c hc => linked?_of_mem hnodup hc
  have hfound : ∀ b ∈ f.blocks, g.linked? b.ref = some (g.inPlaceOf b) := by
    intro b hb
    obtain ⟨c, hc, e⟩ := List.mem_map.mp (hrefs ▸ List.mem_map_of_mem (f := Block.ref) hb)
    rw [inPlaceOf, ← e, hall c hc, Option.getD_some]
  refine List.map_injective_iff.mpr (Option.some_injective _) ?_
  calc g.blocks.map some = (g.blocks.map Block.ref).map g.linked? := by
        rw [List.map_map]
        exact (List.map_congr_left hall).symm
    _ = (f.blocks.map Block.ref).map g.linked? := by rw [hrefs]
    _ = (f.blocks.map g.inPlaceOf).map some := by
        rw [List.map_map, List.map_map]
        exact List.map_congr_left hfound

/-! ### Lines that follow one another -/

theorem Block.lineWrites_eq (h : ∀ p ∈ b.phis, p.incoming ≠ []) : b.lineWrites = b.writes := by
  have hselected : b.phis.flatMap Phi.selected = b.phis.map (·.target) := by
    rw [← List.flatMap_pure_eq_map]
    exact List.flatMap_congr fun p hp => if_neg (h p hp)
  rw [lineWrites, hselected, Block.writes]

/-- A block that is led to by what is reached is as lining it up needs it. -/
theorem LineContext.sound_of_reached (hf : f.Workable n) (hb : b ∈ f.blocks) (hr : f.jumpFlow.Reaches b.id)
    (hroot : ¬ f.jumpFlow.root b.id) (hprev : ∀ q ∈ f.blocks, b.label ∈ q.targets → f.jumpFlow.Reaches q.id)
    (hphis : ∀ p ∈ b.phis, p.wellTyped = true)
    (htests : ∀ ty cond l l', b.jump = some (.branch ty cond l l') → cond.ty = .i32) (ts : List Temp) (width : Nat) :
    LineContext.Sound ⟨True, f.HandedOn b, ts, n, width, b⟩ := by
  refine ⟨fun t ht => hf.reserved_of_read hb ht, fun _ x hx => ?_, fun _ p hp v hv t ht hlocal => ?_, fun _ => ?_,
    fun _ => htests⟩
  · rw [Block.code, List.append_assoc] at hx
    rcases List.mem_append.mp hx with hx | hx
    · obtain ⟨p, hp, rfl⟩ := List.mem_map.mp hx
      exact hphis p hp
    · exact hf.formed.typed b hb hr x hx
  · obtain ⟨⟨w, k⟩, he, rfl⟩ := List.mem_map.mp hv
    obtain rfl : w = .temp t := ht
    obtain ⟨q, hq, hl, rfl⟩ := ((hf.formed.phis b hb p hp).2 k).mp (List.mem_map_of_mem (f := (·.2)) he)
    exact ⟨q, hq, hl, (hf.entry hq hb hp he).2.2 (hprev q hq hl) hlocal⟩
  · have hcode := Func.closed_code_iff.mpr fun pos x => hf.formed.reads b hb hr pos x
    refine hcode.mono fun t ht => (hf.formed.handedOn hr hroot ht).imp_right fun ht => ?_
    -- something comes to every phi
    obtain ⟨p, hp, rfl⟩ := List.mem_map.mp ht
    exact List.mem_flatMap.mpr ⟨p, hp, by simp [Phi.selected, hf.formed.incoming_ne_nil hb hr hroot hp]⟩

namespace LaneInfo.Lined

/-- A line stands in the place of its block. -/
theorem inPlaceOf_block (h : Lined f n i True known es lined n') {pre post : List Line} {e : Line}
    (hsplit : es = pre ++ e :: post) : lined.inPlaceOf e.block = e.toBlock i.width (post.head?.map (·.block.ref)) := by
  rw [Func.inPlaceOf, h.placed pre e post hsplit, Option.getD_some]

theorem code_inPlaceOf (h : Lined f n i True known es lined n') {e : Line} (he : e ∈ es) :
    (lined.inPlaceOf e.block).phis = [] ∧ (lined.inPlaceOf e.block).instrs = e.instrs i.width := by
  obtain ⟨pre, post, hsplit⟩ := List.append_of_mem he
  rw [h.inPlaceOf_block hsplit, Line.toBlock.eq_def]
  exact ⟨rfl, rfl⟩

theorem inPlaceOf_of_rest (h : Lined f n i True known es lined n') (hdistinct : (f.blocks.map Block.id).Nodup)
    (hb : b ∈ f.blocks) (hout : b ∉ es.map (·.block)) : lined.inPlaceOf b = b := by
  have href : b.ref ∉ es.map (·.block.ref) := fun hmem => by
    obtain ⟨e, he, href⟩ := List.mem_map.mp hmem
    exact hout (Func.eq_of_id_eq hdistinct (h.blocks e he) hb (congrArg BlockRef.number href) ▸ List.mem_map_of_mem he)
  rw [Func.inPlaceOf, h.rest _ href, Func.linked?_of_mem hdistinct hb, Option.getD_some]

theorem blocks_eq (h : Lined f n i True known es lined n') (hdistinct : (f.blocks.map Block.id).Nodup) :
    lined.blocks = f.blocks.map lined.inPlaceOf :=
  Func.blocks_eq_map_inPlaceOf (Func.nodup_ids_of_refs h.refs hdistinct) h.refs

/-- Where something comes to every phi, the lines define what their blocks did, and new names. -/
theorem perm_writesOf (h : Lined f n i True known es lined n') (hdistinct : (f.blocks.map Block.id).Nodup)
    (hnodup : (es.map (·.block)).Nodup) (hphis : ∀ e ∈ es, ∀ p ∈ e.block.phis, p.incoming ≠ []) :
    ∃ us, Temp.AllFresh n n' us ∧ (∀ t ∈ us, t.isGlobal = false) ∧
      (writesOf (f.mapBlocks lined.inPlaceOf).blocks).Perm (writesOf f.blocks ++ us) := by
  obtain ⟨us, hus, hlocals, hperm⟩ := h.lines.writes
  refine ⟨us, hus, hlocals, Func.perm_writesOf_mapBlocks (.of_map _ hdistinct) hnodup
    (List.forall_mem_map.mpr fun e he => h.blocks e he) (fun b hb hout => h.inPlaceOf_of_rest hdistinct hb hout) ?_⟩
  have hlines : ((es.map (·.block)).flatMap fun b => (lined.inPlaceOf b).writes) =
      es.flatMap fun e => (e.instrs i.width).filterMap Instr.write := by
    rw [List.flatMap_map]
    refine List.flatMap_congr fun e he => ?_
    obtain ⟨hnone, hinstrs⟩ := h.code_inPlaceOf he
    rw [Block.writes, hnone, hinstrs, List.map_nil, List.nil_append]
  have hkept : es.flatMap (·.block.lineWrites) = writesOf (es.map (·.block)) := by
    rw [writesOf, List.flatMap_map]
    exact List.flatMap_congr fun e he => Block.lineWrites_eq (hphis e he)
  rw [hlines, ← hkept]
  exact hperm.trans List.perm_append_comm

/-- The lines follow one another in the order of their blocks. -/
theorem straightens (h : Lined f n i True f.HandedOn es lined n') (hthreads : f.Threads header (es.map (·.block)))
    (hnamed : f.Named n) (hword : (n' : Int) ≤ u32Max) :
    f.Straightens header (es.map (·.block)) lined.inPlaceOf := by
  have hdistinct := hthreads.formed.distinct
  have hphis : ∀ e ∈ es, ∀ p ∈ e.block.phis, p.incoming ≠ [] := fun e he p hp =>
    have hmem := List.mem_map_of_mem (f := (·.block)) he
    hthreads.formed.incoming_ne_nil (h.blocks e he) (hthreads.live _ hmem) (hthreads.root _ hmem) hp
  obtain ⟨us, hus, -, hperm⟩ := h.perm_writesOf hdistinct hthreads.nodup hphis
  -- a place in the order is one among the lines
  have hplace : ∀ pre b post, es.map (·.block) = pre ++ b :: post → ∃ pre' e post', es = pre' ++ e :: post' ∧
      pre'.map (·.block) = pre ∧ e.block = b ∧ post'.map (·.block) = post := by
    intro pre b post hsplit
    obtain ⟨pre', rest, rfl, hpre, hrest⟩ := List.map_eq_append_iff.mp hsplit
    obtain ⟨e, post', rfl, he, hpost⟩ := List.map_eq_cons_iff.mp hrest
    exact ⟨pre', e, post', rfl, hpre, he, hpost⟩
  refine { hthreads with
           rest := fun b hb hout => h.inPlaceOf_of_rest hdistinct hb hout
           ref := List.forall_mem_map.mpr fun e he => ?_
           phis := List.forall_mem_map.mpr fun e he => (h.code_inPlaceOf he).1
           next := fun pre b c post hsplit => ?_
           back := fun pre b hsplit => ?_
           writes := List.forall_mem_map.mpr fun e he => ?_
           fresh := ?_
           typed := List.forall_mem_map.mpr fun e he => ?_
           closed := fun pre b post hsplit => ?_ }
  · obtain ⟨pre, post, hsplit⟩ := List.append_of_mem he
    rw [h.inPlaceOf_block hsplit, BodyPlan.ref_toBlock]
  · obtain ⟨pre, e, post, rfl, -, rfl, hpost⟩ := hplace pre b (c :: post) hsplit
    obtain ⟨d, post, rfl, rfl, -⟩ := List.map_eq_cons_iff.mp hpost
    rw [h.inPlaceOf_block rfl, Line.toBlock.eq_def]
    rfl
  · obtain ⟨pre, e, post, rfl, -, rfl, hpost⟩ := hplace pre b [] hsplit
    obtain rfl := List.map_eq_nil_iff.mp hpost
    rw [h.inPlaceOf_block rfl, Line.toBlock.eq_def]
    rfl
  · rw [(h.code_inPlaceOf he).2, ← Block.lineWrites_eq (hphis e he)]
    exact h.lines.kept e he
  · refine ((hperm.append_left f.params).nodup_iff).mpr ?_
    rw [← List.append_assoc]
    exact hnamed.nodup_append hthreads.formed.defined_once hword hus
  · rw [(h.code_inPlaceOf he).2]
    exact h.lines.typed trivial e he
  · obtain ⟨pre, e, post, hes, rfl, rfl, -⟩ := hplace pre b post hsplit
    have hclosed := h.lines.closed trivial pre e post hes
    rw [(h.code_inPlaceOf (show e ∈ es by simp [hes])).2]
    refine hclosed.mono fun t ht => ht.imp_right fun ht => ?_
    obtain ⟨d, hd, ht⟩ := List.mem_flatMap.mp ht
    refine List.mem_flatMap.mpr ⟨d.block, List.mem_map_of_mem hd, ?_⟩
    rwa [(h.code_inPlaceOf (show d ∈ es by simp [hes, hd])).2]

/-- There is room for new names behind a body that was lined up. -/
theorem workable (h : Lined f n i True f.HandedOn es lined n') (hplaced : i.region.Placed f n)
    (hthreads : f.Threads header (es.map (·.block))) (hext : f.Extensible n) (hword : (n' : Int) ≤ u32Max)
    (hresolve : lined.resolveLinks = (g, none)) :
    g.Workable n' ∧ ∀ u w, g.jumpFlow.edge u w → f.jumpFlow.edge u w ∨ w = header.id ∨
      Func.Within (es.map (·.block)) w := by
  have hdistinct := hthreads.formed.distinct
  have hre := h.reworked hplaced hresolve
  have hstraight := h.straightens hthreads hext.toNamed hword
  have hsame : (f.mapBlocks lined.inPlaceOf).SameCode g := by
    have hlinks := Func.sameCode_resolveLinks lined
    rw [hresolve] at hlinks
    refine ⟨h.params.symm.trans hlinks.1, ?_⟩
    rw [Func.mapBlocks, ← h.blocks_eq hdistinct]
    exact hlinks.2
  refine ⟨{ locals := ?_, reserved := hre.reserved hplaced hword, total := (hre.placed hplaced hword).total,
            phis := fun c hc p hp => ?_, formed := hsame.formedByJumps hstraight.formedByJumps },
    fun u w e => hstraight.edge_cases (hsame.jumpFlow_eq ▸ e)⟩
  · obtain ⟨us, -, hlocals, hperm⟩ := h.perm_writesOf hdistinct hthreads.nodup fun e he p hp =>
      have hmem := List.mem_map_of_mem (f := (·.block)) he
      hthreads.formed.incoming_ne_nil (h.blocks e he) (hthreads.live _ hmem) (hthreads.root _ hmem) hp
    rw [← hsame.writesOf_eq]
    exact fun t ht => (List.mem_append.mp (hperm.subset ht)).elim (hext.locals t) (hlocals t)
  · by_cases hout : c.ref ∈ i.region.blocks → c.ref = i.region.header
    · obtain ⟨b, hb, -, hphis, -⟩ := hre.exists_rest hc hout
      exact hext.phis b hb p (hphis ▸ hp)
    · obtain ⟨hin, hne⟩ := Classical.not_imp.mp hout
      rw [(hre.lined c hc hin hne).1] at hp
      cases hp

end LaneInfo.Lined

/-! ### Loops -/

namespace Loop.Enclosed

/-- The blocks of the region of a loop, the header aside, are its body. -/
theorem mem_body_of_erase (h : l.Enclosed f) (hext : f.Extensible n) (hb : b ∈ f.blocks)
    (hin : b.ref ∈ (Region.ofLoop f f.forest l).blocks.erase (Region.ofLoop f f.forest l).header) :
    b ∈ l.body f f.forest := by
  have hplaced := Region.placed_ofLoop h hext
  obtain ⟨hne, hmem⟩ := hplaced.nodup.mem_erase_iff.mp hin
  obtain ⟨d, hd, e⟩ := List.mem_map.mp hmem
  obtain ⟨hdf, hdl⟩ := Loop.mem_blocks.mp hd
  obtain rfl := Func.eq_of_id_eq hplaced.distinct hdf hb (congrArg BlockRef.number e)
  refine Loop.mem_body.mpr ⟨hdf, hdl, fun hid => hne ?_⟩
  obtain ⟨c, hc, href⟩ := hplaced.blocks _ hplaced.header
  exact (hplaced.linked.ref_eq hdf hc (hid.trans (congrArg BlockRef.number href).symm)).trans href

/-- A block of the body is as lining it up needs it, if its phis take in values of their own types and it branches on
a word. -/
theorem sound_of_body (h : l.Enclosed f) (hf : f.Workable n) (hb : b ∈ l.body f f.forest)
    (hphis : ∀ p ∈ b.phis, p.wellTyped = true)
    (htests : ∀ ty cond k m, b.jump = some (.branch ty cond k m) → cond.ty = .i32) (ts : List Temp) (width : Nat) :
    LineContext.Sound ⟨True, f.HandedOn b, ts, n, width, b⟩ := by
  obtain ⟨hbf, hbl, hbh⟩ := Loop.mem_body.mp hb
  have hlinks := Func.linkedByJumps_of_wellLinked h.linked
  have hreach := (h.header_dominates hbl).reaches
  refine LineContext.sound_of_reached hf hbf (hlinks.flow_eq ▸ hreach) (hlinks.flow_eq ▸ h.not_root hbl hbh)
    (fun q hq hl => ?_) hphis htests ts width
  have hprev := (hlinks.mutual_links q hq b hbf).mp ((hlinks.mem_succ_iff h.linked.nodup hq hbf).mpr hl)
  exact hlinks.flow_eq ▸ h.reached_of_prev hbf hreach hprev

/-- Jumps leave the region of a loop from its header, to one block. -/
theorem exists_leaves_ofLoop (h : l.Enclosed f) (hexit : (l.exitingBlocks f f.forest).map (·.id) = [l.header.number])
    (hheader : header ∈ f.blocks) (href : header.ref = l.header) : ∃ x, ∀ u w,
      (Region.ofLoop f f.forest l).contains u = true → f.jumpFlow.edge u w →
        (Region.ofLoop f f.forest l).contains w = true ∨ u = header.id ∧ w = x := by
  obtain ⟨x, hx⟩ := h.exists_leaves hexit hheader href
  refine ⟨x, fun u w hu e => ?_⟩
  obtain ⟨b, hb, rfl, hl⟩ := e
  obtain ⟨c, hc, hcl⟩ := h.linked.exists_target hb hl
  obtain rfl : c.id = w := Label.ofBlock_injective hcl
  rw [Region.contains_ofLoop hb] at hu
  rw [Region.contains_ofLoop hc]
  exact hx _ _ hu ⟨b, hb, rfl, hl⟩

section Widened

variable (h : l.Enclosed f) (hext : f.Extensible n) (hregion : i.region = .ofLoop f f.forest l)
  (hphis : ∀ b ∈ l.blocks f f.forest, ∀ p ∈ b.phis, p.wellTyped = true)

include h hext hregion hphis

/-- The header of the region, with phis that take in values of their own types. -/
theorem exists_header : ∃ header ∈ f.blocks, header.ref = i.region.header ∧ ∀ p ∈ header.phis, p.wellTyped = true := by
  have hplaced := Region.placed_ofLoop h hext
  obtain ⟨header, hheader, href⟩ := hplaced.blocks _ hplaced.header
  refine ⟨header, hheader, hregion ▸ href, hphis header (Loop.mem_blocks.mpr ⟨hheader, ?_⟩)⟩
  rw [Block.id, href]
  exact LoopForest.contains_header h.linked.toLinked h.mem

variable (hexit : (l.exitingBlocks f f.forest).map (·.id) = [l.header.number])

include hexit

/-- A loop whose branches do not vary is widened as it stands. -/
theorem verify_of_widen (hwiden : i.widen f n = .ok (g, n')) (hmax : (n' : Int) ≤ u32Max) : g.verify = .ok () := by
  have hf : f.Workable n := ⟨hext, Func.formedByJumps_of_verify h.verified⟩
  have hplaced : i.region.Placed f n := hregion ▸ Region.placed_ofLoop h hext
  obtain ⟨header, hheader, href, htyped⟩ := h.exists_header hext hregion hphis
  refine LaneInfo.verify_widen hf hplaced.links hplaced.nodup hheader href hplaced.header htyped ?_ hwiden hmax
  rw [hregion] at href ⊢
  exact h.exists_leaves_ofLoop hexit hheader href

/-- A loop is widened behind its body, where that was lined up and branches on words. -/
theorem verify_of_linearize (hbalanced : f.Balanced) (hlatch : l.singleLatch? f f.forest = some r)
    (htests : ∀ b ∈ l.body f f.forest, ∀ ty cond k m, b.jump = some (.branch ty cond k m) → cond.ty = .i32)
    (hlinearize : i.linearize f n = .ok (f', i', k)) {j : LaneInfo} (hj : j.region = i'.region)
    (hwiden : j.widen f' k = .ok (g, n')) (hmax : (n' : Int) ≤ u32Max) : g.verify = .ok () := by
  have hf : f.Workable n := ⟨hext, Func.formedByJumps_of_verify h.verified⟩
  have hplaced : i.region.Placed f n := hregion ▸ Region.placed_ofLoop h hext
  obtain ⟨header, hheader, href, htyped⟩ := h.exists_header hext hregion hphis
  have hhref : header.ref = l.header := href.trans (hregion ▸ rfl)
  -- the blocks of the body become lines, one behind the other
  obtain ⟨es, lined, hlined, hresolve, hi'⟩ := LaneInfo.exists_lined hplaced (fun b hb hin ts => by
    have hbody := h.mem_body_of_erase hext hb (hregion ▸ hin)
    exact h.sound_of_body hf hbody (hphis b (Loop.mem_blocks.mpr ⟨hb, (Loop.mem_body.mp hbody).2.1⟩))
      (htests b hbody) ts _) hlinearize
  have hre : LaneInfo.Reworked f n i f' k i' := hi' ▸ hlined.reworked hplaced hresolve
  have hthreads : f.Threads header (es.map (·.block)) := by
    refine h.threads hexit hheader hhref hbalanced hlatch (List.forall_mem_map.mpr hlined.blocks) ?_
    have hsorted := hlined.sorted
    rw [hregion] at hsorted
    rw [List.map_map]
    exact (congrArg _ List.filter_map.symm).trans hsorted
  have hnodup : j.region.blocks.Nodup := hj ▸ hre.region.nodup_iff.mpr hplaced.nodup
  have hk : (k : Int) ≤ u32Max := by
    obtain ⟨_, hwidened⟩ := LaneInfo.exists_widened (Func.nodup_ids_of_refs hre.refs hplaced.distinct) hnodup hwiden
    exact Int.le_trans (Int.ofNat_le.mpr hwidened.le) hmax
  obtain ⟨hworkable, hedges⟩ := hlined.workable hplaced hthreads hext hk hresolve
  -- the header is as it was
  obtain ⟨c, hc, hcref⟩ := List.mem_map.mp (hre.refs ▸ List.mem_map_of_mem (f := Block.ref) hheader)
  obtain ⟨d, hd, hdref, hdphis, -⟩ := hre.exists_rest hc fun _ => hcref.trans href
  obtain rfl := Func.eq_of_id_eq hplaced.distinct hd hheader (congrArg BlockRef.number (hdref.trans hcref))
  have hcontains : ∀ v, j.region.contains v = i.region.contains v := fun v => hj ▸ hre.region.any_eq
  have hjheader : j.region.header = i.region.header := (congrArg Region.header hj).trans hre.header
  refine LaneInfo.verify_widen hworkable hre.links hnodup hc ((hcref.trans href).trans hjheader.symm) ?_
    (hdphis ▸ htyped) ?_ hwiden hmax
  · rw [hjheader, hj, hre.region.mem_iff]
    exact hplaced.header
  · obtain ⟨x, hx⟩ := h.exists_leaves_ofLoop hexit hheader hhref
    refine ⟨x, fun u w hu e => ?_⟩
    rw [hcontains] at hu ⊢
    rw [← hregion] at hx
    rw [show c.id = d.id from congrArg BlockRef.number hcref]
    rcases hedges u w e with e | rfl | ⟨b, hb, rfl⟩
    · exact hx u w hu e
    · exact .inl (i.region.contains_of_mem (href ▸ hplaced.header))
    · obtain ⟨e, he, rfl⟩ := List.mem_map.mp hb
      refine .inl (i.region.contains_of_mem (List.mem_of_mem_erase (hlined.region.subset ?_)))
      exact List.mem_map_of_mem (f := (·.block.ref)) he

end Widened

/-- A loop that its header alone leaves is widened to a function that verification accepts, if its phis take in values
of their own types and, where its body is lined up, that branches on words. -/
theorem verify_lowered (h : l.Enclosed f) (hbalanced : f.Balanced) (hext : f.Extensible n)
    (hexit : (l.exitingBlocks f f.forest).map (·.id) = [l.header.number])
    (hlatch : l.singleLatch? f f.forest = some r) (hregion : i.region = .ofLoop f f.forest l)
    (hphis : ∀ b ∈ l.blocks f f.forest, ∀ p ∈ b.phis, p.wellTyped = true)
    (htests : (Lowering.analyze f n i).isDivergent = true → ∀ b ∈ l.body f f.forest, ∀ ty cond k m,
      b.jump = some (.branch ty cond k m) → cond.ty = .i32)
    (hline : (Lowering.analyze f n i).lineUp = .ok lowered) (hwiden : lowered.widen = .ok (g, n'))
    (hmax : (n' : Int) ≤ u32Max) : g.verify = .ok () := by
  have hanalyzed := (LaneInfo.region_analyze f n i).trans hregion
  rcases LaneInfo.lineUp_eq_ok hline with rfl | ⟨hdivergent, f', i', k, hlinearize, rfl⟩
  · exact h.verify_of_widen hext hanalyzed hphis hexit (LaneInfo.widen_of_lowering hwiden).2 hmax
  · exact h.verify_of_linearize hext hanalyzed hphis hexit hbalanced hlatch (htests hdivergent) hlinearize
      (LaneInfo.region_analyze f' k i') (LaneInfo.widen_of_lowering hwiden).2 hmax

end Loop.Enclosed

/-- What is pinned of the loop that chooses on its way. -/
def LaneInfo.choices : LaneInfo :=
  let l := (choosing.forest.withHeader? 1).getD default
  ((ofRegion choosing 4 (.ofLoop choosing choosing.forest l)).pin (.ofLocal "i" .i32) (.strided 1)).pin
    (.ofLocal "cond" .i32) .uniform

open LaneInfo in
/-- The loop that chooses on its way has to be lined up, and verification accepts its four lanes. -/
theorem Loop.Enclosed.verify_lowered_choosing : (Lowering.analyze choosing 0 choices).isDivergent = true ∧
    ∃ lowered g n', (Lowering.analyze choosing 0 choices).lineUp = .ok lowered ∧ lowered.widen = .ok (g, n') ∧
      g.verify = .ok () := by
  have hverify : choosing.verify = .ok () := by
    have h : choosing.verify.toOption = some () := by decide +kernel
    revert h
    cases choosing.verify <;> simp [Except.toOption]
  have hloop : Loop.Enclosed choosing ((choosing.forest.withHeader? 1).getD default) := by
    refine ⟨hverify, ?_, by decide +kernel, by decide +kernel⟩
    exact (Func.enclosed_iff (Func.wellLinked_of_verify hverify).toLinked).mpr (by decide +kernel)
  have hext : choosing.Extensible 0 := ⟨⟨by decide +kernel, by decide +kernel⟩, by decide, by decide⟩
  obtain ⟨lowered, hline, hdone⟩ := exists_of_any (x := (Lowering.analyze choosing 0 choices).lineUp)
    (P := fun l => l.widen.toOption.any fun (p : Func × TempCounter) => decide (p.2 ≤ 100)) (by decide +kernel)
  obtain ⟨⟨g, n'⟩, hwiden, hn'⟩ := exists_of_any hdone
  have hmax : (n' : Int) ≤ u32Max := Int.le_trans (Int.ofNat_le.mpr (of_decide_eq_true hn')) (by decide)
  obtain ⟨latch, hlatch⟩ : ∃ r, ((choosing.forest.withHeader? 1).getD default).singleLatch? choosing choosing.forest =
      some r := Option.isSome_iff_exists.mp (by decide +kernel)
  have hconds : ∀ b ∈ choosing.blocks, b.jump.all (fun j => j.reads.all (·.ty == .i32)) = true := by decide
  refine ⟨by decide +kernel, lowered, g, n', hline, hwiden, ?_⟩
  refine hloop.verify_lowered (by decide +kernel) hext (by decide +kernel) hlatch rfl (by decide +kernel)
    (fun _ b hb ty cond k m hjump => ?_) hline hwiden hmax
  have hcond := hconds b (Loop.mem_body.mp hb).1
  rw [hjump] at hcond
  simpa [Instr.reads] using hcond

end LoopLanes
