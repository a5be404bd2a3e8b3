/-
Regions that were lined up.

A body is lined up in place: its blocks keep their links, lose their phis and go on to one another in their
topological order, in which each of them stands once (`perm_topoOrder?`).  The header of the region and the blocks
outside of it keep their code (`LaneInfo.Reworked`).  So the region stays in its place, and whatever advances a
phi does so in the lines.

* `LaneInfo.reworked_of_linearize` — the function that a body was lined up in;
* `LaneInfo.Offered.linearize` — what a plan fixed of a region is fixed of the one that was lined up.
-/
import LoopLanes.Proofs.Widen.CutOff
import LoopLanes.Proofs.Widen.Lined
import LoopLanes.Proofs.Widen.Offers

namespace LoopLanes

variable {n : TempCounter} {t : Temp}

/-! ### The order of a body -/

namespace TopoState

variable {f : Func} {s : TopoState} {done : List BlockRef} {K : BlockRef → Prop}

/-- What was sorted or waits is one of the links that are known and has its own number, and no open edge is left
into it. -/
structure Once (K : BlockRef → Prop) (done : List BlockRef) (s : TopoState) : Prop where
  known : ∀ r ∈ done ++ s.queue, K r
  nodup : ((done ++ s.queue).map (·.number)).Nodup
  counted : ∀ r ∈ done ++ s.queue, ∀ d, s.pending.lookup r.number = some d → d ≤ 0

theorem Once.arrive {r : BlockRef} (h : Once K done s) (hr : K r) : Once K done (s.arrive r) := by
  unfold TopoState.arrive
  split
  swap
  · exact h
  rename_i d hd
  have hcounted : ∀ q ∈ done ++ s.queue, ∀ d', (setEntry r.number (d - 1) s.pending).lookup q.number = some d' →
      d' ≤ 0 := by
    intro q hq d' hd'
    rw [lookup_setEntry] at hd'
    split at hd'
    · rename_i e
      have := h.counted q hq d (e ▸ hd)
      obtain rfl := Option.some.inj hd'
      omega
    · exact h.counted q hq d' hd'
  by_cases hone : d = 1
  · -- the last open edge leads to a block that was neither sorted nor waits
    have hnew : ∀ q ∈ done ++ s.queue, q.number ≠ r.number := by
      intro q hq e
      have := h.counted q hq d (e ▸ hd)
      omega
    have hlast : ∀ d', (setEntry r.number (d - 1) s.pending).lookup r.number = some d' → d' ≤ 0 := by
      intro d' hd'
      rw [lookup_setEntry_self] at hd'
      obtain rfl := Option.some.inj hd'
      omega
    rw [if_pos hone]
    refine ⟨?_, ?_, ?_⟩ <;> rw [← List.append_assoc]
    · exact List.forall_mem_append.mpr ⟨h.known, List.forall_mem_singleton.mpr hr⟩
    · rw [List.map_append]
      refine List.nodup_append.mpr ⟨h.nodup, List.nodup_singleton _, fun v hv w hw e => ?_⟩
      obtain ⟨q, hq, rfl⟩ := List.mem_map.mp hv
      exact hnew q hq (e.trans (List.mem_singleton.mp hw))
    · exact List.forall_mem_append.mpr ⟨hcounted, List.forall_mem_singleton.mpr hlast⟩
  · rw [if_neg hone]
    exact ⟨h.known, h.nodup, hcounted⟩

theorem Once.foldl_arrive : ∀ {rs : List BlockRef} {s : TopoState}, Once K done s → (∀ r ∈ rs, K r) →
    Once K done (rs.foldl TopoState.arrive s) := by
  intro rs
  induction rs with
  | nil => exact fun h _ => h
  | cons r rs ih =>
    intro s h hrs
    obtain ⟨hr, hrs⟩ := List.forall_mem_cons.mp hrs
    exact ih (h.arrive hr) hrs

theorem Once.run (hsucc : ∀ b, ∀ r ∈ f.succs b, K r) : ∀ {fuel : Nat} {s : TopoState}, Once K s.order s →
    Once K (TopoState.run f fuel s).order (TopoState.run f fuel s) := by
  intro fuel
  induction fuel with
  | zero => exact fun h => h
  | succ fuel ih =>
    intro s h
    cases hs : s.queue with
    | nil =>
      rw [TopoState.run, hs]
      exact h
    | cons b queue =>
      -- the block leaves the queue for the order, and its edges are counted
      have hsame : s.order ++ [b] ++ queue = s.order ++ s.queue := by simp [hs]
      have hleft : Once K (s.order ++ [b]) { s with queue := queue } :=
        ⟨hsame ▸ h.known, hsame ▸ h.nodup, hsame ▸ h.counted⟩
      have hcounted := hleft.foldl_arrive (hsucc b)
      rw [run_succ hs]
      exact ih ⟨hcounted.known, hcounted.nodup, hcounted.counted⟩

end TopoState

/-- A body is sorted by its links, where numbers tell blocks apart. -/
theorem perm_topoOrder? {f : Func} (hf : f.LinkedByJumps) (hdistinct : (f.blocks.map Block.id).Nodup)
    {body order : List BlockRef} (hbody : ∀ r ∈ body, ∃ b ∈ f.blocks, b.ref = r) (hnodup : body.Nodup)
    (h : topoOrder? f body = some order) : order.Perm body := by
  have hlinked := hf.linked hdistinct
  have hnumbers : (body.map (·.number)).Nodup := by
    refine hnodup.map_on fun r hr q hq e => ?_
    obtain ⟨b, hb, rfl⟩ := hbody r hr
    obtain ⟨c, hc, rfl⟩ := hbody q hq
    exact hlinked.ref_eq hb hc e
  have hmem : ∀ r ∈ order, ∃ q ∈ body, q.number = r.number := fun r hr => mem_topoOrder? h hr
  unfold topoOrder? at h
  extract_lets ids inDegree pending start s at h
  split at h
  swap
  · cases h
  rename_i hlength
  obtain rfl := Option.some.inj h
  have hstart : TopoState.Once (fun r => ∃ b ∈ f.blocks, b.ref = r) [] ⟨pending, start, []⟩ := by
    refine ⟨fun r hr => hbody r (List.mem_filter.mp hr).1, hnumbers.sublist (List.filter_sublist.map _),
      fun r hr d hd => ?_⟩
    have hzero := (List.mem_filter.mp hr).2
    rw [show pending.lookup r.number = some d from hd] at hzero
    obtain rfl : d = 0 := by simpa using hzero
    exact Int.le_refl 0
  have hend : TopoState.Once (fun r => ∃ b ∈ f.blocks, b.ref = r) s.order s := by
    refine TopoState.Once.run (fun b r hr => ?_) hstart
    cases hb : f.linked? b with
    | none => simp [Func.succs, hb] at hr
    | some c =>
      rw [Func.succs, hb] at hr
      exact hf.inside c (Func.linked?_mem hb).1 r (List.mem_append_right _ hr)
  -- as many blocks as the body has, all of them from it and none twice
  have hsub : s.order ⊆ body := by
    intro r hr
    obtain ⟨b, hb, rfl⟩ := hend.known r (List.mem_append_left _ hr)
    obtain ⟨q, hq, e⟩ := hmem _ hr
    obtain ⟨c, hc, rfl⟩ := hbody q hq
    exact hlinked.ref_eq hc hb e ▸ hq
  have hnodup' : s.order.Nodup := by
    have := hend.nodup
    rw [List.map_append] at this
    exact (List.nodup_append.mp this).1.of_map
  exact (List.subperm_of_subset hnodup' hsub).perm_of_length_le (Nat.le_of_eq hlength.symm)

/-! ### Regions that are lined up -/

/-- Lining up changes nothing of a function but its blocks. -/
theorem BodyPlan.exists_run_blocks (p : BodyPlan) : ∀ (order : List BlockRef) (f : Func) (s : MaskState),
    ∃ bs, ((p.blocks order f).run s).1 = { f with blocks := bs } := by
  intro order
  induction order with
  | nil => exact fun f _ => ⟨f.blocks, rfl⟩
  | cons r rs ih =>
    intro f s
    unfold BodyPlan.blocks
    split
    · exact ih f s
    · rename_i b hb
      exact ih (f.modify r fun _ => ((p.block b rs.head?).run s).1) ((p.block b rs.head?).run s).2

namespace LaneInfo

variable {f g : Func} {i i' : LaneInfo} {n' : TempCounter} {c : Block}

/-- What lining up a body leaves: the blocks of the region but for its header are lines, without phis, and the
others have the code that they had. -/
structure Reworked (f : Func) (n : TempCounter) (i : LaneInfo) (g : Func) (n' : TempCounter) (i' : LaneInfo) :
    Prop where
  le : n ≤ n'
  pinned : i'.pinned = i.pinned
  header : i'.region.header = i.region.header
  region : i'.region.blocks.Perm i.region.blocks
  links : g.LinkedByJumps
  refs : g.blocks.map Block.ref = f.blocks.map Block.ref
  params : g.params = f.params
  total : g.total = f.total
  lined : ∀ c ∈ g.blocks, c.ref ∈ i.region.blocks → c.ref ≠ i.region.header → c.phis = [] ∧
    ∃ b ∈ f.blocks, b.ref = c.ref ∧ (∀ x ∈ c.instrs, x.OfLine n n' i.width b) ∧
      ∀ y, c.jump = some y → b.jump = some y ∨ ∃ l, y = .jump l
  rest : ∀ c ∈ g.blocks, (c.ref ∈ i.region.blocks → c.ref = i.region.header) →
    ∃ b ∈ f.blocks, b.clearLinks = c.clearLinks

/-- What lining up a body leaves as long as links are not rebuilt: the header aside, the blocks of the region become
lines, in their topological order. -/
structure Lined (f : Func) (n : TempCounter) (i : LaneInfo) (reached : Prop) (known : Block → Temp → Prop)
    (es : List Line) (lined : Func) (n' : TempCounter) : Prop where
  le : n ≤ n'
  blocks : ∀ e ∈ es, e.block ∈ f.blocks
  lines : BodyPlan.LinesOf n n n' i.width reached known [] es
  sorted : topoOrder? f (i.region.blocks.filter (·.number != i.region.header.number)) = some (es.map (·.block.ref))
  region : (es.map (·.block.ref)).Perm (i.region.blocks.erase i.region.header)
  refs : lined.blocks.map Block.ref = f.blocks.map Block.ref
  params : lined.params = f.params
  total : lined.total = f.total
  rest : ∀ r ∉ es.map (·.block.ref), lined.linked? r = f.linked? r
  placed : ∀ pre e post, es = pre ++ e :: post →
    lined.linked? e.block.ref = some (e.toBlock i.width (post.head?.map (·.block.ref)))

/-- The header aside, the blocks of a region become lines. -/
theorem exists_lined {P : Prop} {K : Block → Temp → Prop} (h : i.region.Placed f n)
    (hsound : ∀ b ∈ f.blocks, b.ref ∈ i.region.blocks.erase i.region.header → ∀ ts,
      LineContext.Sound ⟨P, K b, ts, n, i.width, b⟩)
    (hrun : i.linearize f n = .ok (g, i', n')) : ∃ es lined, Lined f n i P K es lined n' ∧
      lined.resolveLinks = (g, none) ∧
      i' = { i with region := { i.region with blocks := i.region.header :: es.map (·.block.ref) } } := by
  unfold linearize at hrun
  obtain ⟨⟨plan, order⟩, hplan, hrun⟩ := bind_eq_ok.mp hrun
  obtain ⟨horder, hwidth⟩ := topoOrder?_of_bodyPlan hplan
  -- numbers tell the header apart
  have hbody : i.region.blocks.filter (·.number != i.region.header.number) =
      i.region.blocks.erase i.region.header := by
    obtain ⟨d, hd, e⟩ := h.blocks _ h.header
    rw [h.nodup.erase_eq_filter]
    refine List.filter_congr fun r hr => ?_
    obtain ⟨b, hb, rfl⟩ := h.blocks r hr
    rw [Bool.eq_iff_iff, bne_iff_ne, bne_iff_ne, ← e]
    exact not_congr ⟨h.linked.ref_eq hb hd, congrArg _⟩
  have hsorted := horder
  rw [hbody] at horder
  have hmem : ∀ r ∈ i.region.blocks.erase i.region.header, ∃ b ∈ f.blocks, b.ref = r :=
    fun r hr => h.blocks r (List.mem_of_mem_erase hr)
  have hperm := perm_topoOrder? h.links h.distinct hmem (h.nodup.erase _) horder
  -- the blocks that are lined up
  obtain ⟨bs, hbs, rfl⟩ : ∃ bs : List Block, (∀ b ∈ bs, b ∈ f.blocks) ∧ bs.map Block.ref = order := by
    refine ⟨order.filterMap f.linked?, fun b hb => ?_, ?_⟩
    · obtain ⟨r, -, hr⟩ := List.mem_filterMap.mp hb
      exact (Func.linked?_mem hr).1
    · rw [List.map_filterMap]
      refine (List.filterMap_congr fun r hr => ?_).trans List.filterMap_some
      obtain ⟨b, hb, rfl⟩ := hmem r (hperm.subset hr)
      rw [h.linked.linked? hb]
      rfl
  have hnodup : (bs.map Block.ref).Nodup := hperm.nodup_iff.mpr (h.nodup.erase _)
  rcases hlines : (plan.lines bs).run ⟨n, [], []⟩ with ⟨es, s⟩
  have hstart : MaskState.Tracked ⟨P, fun _ => False, [], n, i.width, .ofId 0⟩ ⟨n, [], []⟩ :=
    ⟨Nat.le_refl n, List.forall_mem_nil _, List.forall_mem_nil _, fun _ => List.forall_mem_nil _, fun _ => trivial⟩
  have hlinesOf := BodyPlan.tracked_lines (K := K) hstart rfl (fun t ht => ht.elim id id) (fun b hb ts =>
    hwidth ▸ hsound b (hbs b hb) (hperm.subset (List.mem_map_of_mem hb)) ts) hlines
  obtain ⟨rfl, lined, hblocks, hrefs, hrest, hplaced⟩ :=
    BodyPlan.run_blocks (fun b hb => h.linked.linked? (hbs b hb)) hnodup hlines
  obtain ⟨moved, hlined⟩ : ∃ moved, lined = { f with blocks := moved } := by
    obtain ⟨moved, e⟩ := plan.exists_run_blocks ((es.map (·.block)).map Block.ref) f ⟨n, [], []⟩
    rw [hblocks] at e
    exact ⟨moved, e⟩
  simp only [hblocks] at hrun
  split at hrun
  · cases hrun
  rename_i resolved hresolve
  obtain ⟨rfl, e⟩ := Prod.mk.inj (pure_eq_ok.mp hrun)
  obtain ⟨rfl, rfl⟩ := Prod.mk.inj e
  simp only [List.map_map] at hsorted hperm hrest ⊢
  rw [hwidth] at hlinesOf hplaced
  exact ⟨es, lined, ⟨BodyPlan.le_temps_lines hlines, fun e he => hbs _ (List.mem_map_of_mem he), hlinesOf, hsorted, hperm,
    hrefs, by rw [hlined], by rw [hlined], hrest, hplaced⟩, hresolve, rfl⟩

/-- Links may be rebuilt behind a body that was lined up. -/
theorem Lined.reworked {reached : Prop} {known : Block → Temp → Prop} {es : List Line} {lined : Func}
    (hlined : Lined f n i reached known es lined n') (h : i.region.Placed f n) (hresolve : lined.resolveLinks = (g, none)) :
    Reworked f n i g n' { i with region := { i.region with blocks := i.region.header :: es.map (·.block.ref) } } := by
  obtain ⟨rfl, hstuck⟩ : lined.resolveLinks.1 = g ∧ lined.resolveLinks.2 = none := by
    rw [hresolve]
    exact ⟨rfl, rfl⟩
  have hperm := hlined.region
  have hsame : lined.resolveLinks.1.blocks.map Block.ref = f.blocks.map Block.ref := by
    have := congrArg (List.map Block.ref) lined.map_clearLinks_resolveLinks
    rw [List.map_map, List.map_map] at this
    exact this.trans hlined.refs
  have hold : ∀ c ∈ lined.resolveLinks.1.blocks, ∃ b ∈ f.blocks, b.ref = c.ref := fun c hc =>
    List.mem_map.mp (hsame ▸ List.mem_map_of_mem (f := Block.ref) hc)
  have hlook : ∀ c ∈ lined.resolveLinks.1.blocks, (lined.linked? c.ref).map Block.clearLinks = some c.clearLinks := by
    intro c hc
    rw [← Func.linked?_resolveLinks, Func.linked?_of_mem (Func.nodup_ids_of_refs hsame h.distinct) hc]
    rfl
  obtain ⟨blocks, hblocks⟩ := lined.exists_resolveLinks
  refine { le := hlined.le, pinned := rfl, header := rfl, region := ?_, links := ?_, refs := hsame,
           params := (Func.params_resolveLinks _).trans hlined.params, total := by rw [hblocks, hlined.total],
           lined := fun c hc hin hne => ?_, rest := fun c hc hout => ?_ }
  · exact (hperm.cons _).trans (List.perm_cons_erase h.header).symm
  · exact Func.linkedByJumps_resolveLinks (Func.nodup_ids_of_refs hlined.refs h.distinct) hstuck
  · -- a line
    obtain ⟨e, he, href⟩ := List.mem_map.mp (hperm.mem_iff.mpr (h.nodup.mem_erase_iff.mpr ⟨hne, hin⟩))
    obtain ⟨pre, post, hsplit⟩ := List.append_of_mem he
    have hline := hlook c hc
    rw [← href, hlined.placed pre e post hsplit, Option.map_some, Option.some.injEq] at hline
    obtain ⟨-, hphis, hinstrs, hjump⟩ := Func.code_of_clearLinks hline
    rw [Line.toBlock.eq_def] at hphis hinstrs hjump
    refine ⟨hphis.symm, e.block, hlined.blocks e he, href, hinstrs ▸ hlined.lines.ofLine e he, fun y hy => ?_⟩
    rw [← hjump] at hy
    cases post with
    | nil => exact .inl hy
    | cons d post => exact .inr ⟨_, (Option.some.inj hy).symm⟩
  · -- any other block
    obtain ⟨b, hb, href⟩ := hold c hc
    have hmem : c.ref ∉ es.map (·.block.ref) := fun hmem => by
      obtain ⟨hne, hin⟩ := h.nodup.mem_erase_iff.mp (hperm.mem_iff.mp hmem)
      exact hne (hout hin)
    have hline := hlook c hc
    rw [hlined.rest _ hmem, ← href, h.linked.linked? hb, Option.map_some, Option.some.injEq] at hline
    exact ⟨b, hb, hline⟩

theorem reworked_of_linearize (h : i.region.Placed f n) (hrun : i.linearize f n = .ok (g, i', n')) :
    Reworked f n i g n' i' := by
  obtain ⟨es, lined, hlined, hresolve, rfl⟩ := exists_lined (P := False) (K := fun _ _ => False) h
    (fun b hb _ ts => ⟨fun t ht => h.reserved_of_read hb ht, nofun, nofun, nofun, nofun⟩) hrun
  exact hlined.reworked h hresolve

namespace Reworked

variable {p : Phi} {s : LaneShape}

theorem mem_of_blocksIn (h : Reworked f n i g n' i') (hc : c ∈ i'.region.blocksIn g) :
    c ∈ g.blocks ∧ c.ref ∈ i.region.blocks := by
  obtain ⟨hmem, hr⟩ := Region.Placed.mem_of_blocksIn hc
  exact ⟨hmem, h.region.mem_iff.mp hr⟩

/-- A block that is not lined up has the code that it had. -/
theorem exists_rest (h : Reworked f n i g n' i') (hc : c ∈ g.blocks)
    (hout : c.ref ∈ i.region.blocks → c.ref = i.region.header) :
    ∃ b ∈ f.blocks, b.ref = c.ref ∧ b.phis = c.phis ∧ b.instrs = c.instrs ∧ b.jump = c.jump := by
  obtain ⟨b, hb, hclear⟩ := h.rest c hc hout
  exact ⟨b, hb, Func.code_of_clearLinks hclear⟩

/-- The header has the phis and the instructions that it had. -/
theorem exists_header (h : Reworked f n i g n' i') (hc : c ∈ g.blocks) (href : c.ref = i'.region.header) :
    ∃ b ∈ f.blocks, b.ref = i.region.header ∧ b.phis = c.phis ∧ b.instrs = c.instrs := by
  obtain ⟨b, hb, e, hphis, hinstrs, -⟩ := h.exists_rest hc fun _ => href.trans h.header
  exact ⟨b, hb, e.trans (href.trans h.header), hphis, hinstrs⟩

/-- What the region defines is new, or the block that it was defined in defines it still. -/
theorem write (h : Reworked f n i g n' i') (hplaced : i.region.Placed f n) (hc : c ∈ i'.region.blocksIn g)
    (ht : t ∈ c.writes) : t.Fresh n n' ∨ ∃ b ∈ i.region.blocksIn f, b.ref = c.ref ∧ t ∈ b.writes := by
  obtain ⟨hmem, hin⟩ := h.mem_of_blocksIn hc
  by_cases hne : c.ref = i.region.header
  · obtain ⟨b, hb, href, hphis, hinstrs, -⟩ := h.exists_rest hmem fun _ => hne
    refine .inr ⟨b, hplaced.mem_blocksIn hb (href ▸ hin), href, ?_⟩
    rwa [Block.writes, hphis, hinstrs]
  · obtain ⟨hphis, b, hb, href, hline, -⟩ := h.lined c hmem hin hne
    rw [Block.writes, hphis] at ht
    obtain ⟨x, hx, hw⟩ := List.mem_filterMap.mp ht
    exact ((hline x hx).write hw).imp_right fun ht => ⟨b, hplaced.mem_blocksIn hb (href ▸ hin), href, ht⟩

theorem mem_writesOf (h : Reworked f n i g n' i') (hplaced : i.region.Placed f n)
    (ht : t ∈ writesOf (i'.region.blocksIn g)) : t.Fresh n n' ∨ t ∈ writesOf (i.region.blocksIn f) := by
  obtain ⟨c, hc, ht⟩ := List.mem_flatMap.mp ht
  exact (h.write hplaced hc ht).imp_right fun ⟨b, hb, _, ht⟩ => List.mem_flatMap.mpr ⟨b, hb, ht⟩

/-- All names are behind the counter. -/
theorem reserved (h : Reworked f n i g n' i') (hplaced : i.region.Placed f n) (hmax : (n' : Int) ≤ u32Max) :
    ∀ t ∈ g.mentions, t.Reserved n' := by
  have hold : ∀ b ∈ f.blocks, ∀ t ∈ b.mentions, t.Reserved n' := fun b hb t ht =>
    (hplaced.reserved t (List.mem_append_right _ (List.mem_flatMap.mpr ⟨b, hb, ht⟩))).mono h.le
  intro t ht
  rcases List.mem_append.mp ht with ht | ht
  · exact (hplaced.reserved t (List.mem_append_left _ (h.params ▸ ht))).mono h.le
  obtain ⟨c, hc, ht⟩ := List.mem_flatMap.mp ht
  by_cases hout : c.ref ∈ i.region.blocks → c.ref = i.region.header
  · obtain ⟨b, hb, -, hphis, hinstrs, hjump⟩ := h.exists_rest hc hout
    exact hold b hb t (by rwa [Block.mentions, hphis, hinstrs, hjump])
  · obtain ⟨hin, hne⟩ := Classical.not_imp.mp hout
    obtain ⟨hphis, b, hb, -, hline, hjump⟩ := h.lined c hc hin hne
    obtain ⟨x, hx, ht⟩ := List.mem_flatMap.mp ht
    rw [hphis, List.map_nil, List.nil_append] at hx
    rcases List.mem_append.mp hx with hx | hx
    · rcases List.mem_append.mp ht with ht | ht
      · rcases (hline x hx).write (Option.mem_toList.mp ht) with hnew | hwrite
        · exact hnew.reserved hmax
        · exact (hplaced.reserved t (Func.mem_mentions (List.mem_append_right _
            (List.mem_flatMap.mpr ⟨b, hb, hwrite⟩)))).mono h.le
      · rcases (hline x hx).read ht with hsince | hread
        · exact hsince.reserved h.le hmax
        · exact (hplaced.reserved_of_read hb hread).mono h.le
    · rcases hjump x (Option.mem_toList.mp hx) with hjump | ⟨l, rfl⟩
      · exact hold b hb t (List.mem_flatMap.mpr ⟨x, by simp [hjump], ht⟩)
      · cases ht

/-- The region is still in its place. -/
theorem placed (h : Reworked f n i g n' i') (hplaced : i.region.Placed f n) (hmax : (n' : Int) ≤ u32Max) :
    i'.region.Placed g n' := by
  have hids : g.blocks.map Block.id = f.blocks.map Block.id := Func.map_id_of_refs h.refs
  refine { distinct := hids ▸ hplaced.distinct, links := h.links, reserved := h.reserved hplaced hmax,
           nodup := h.region.nodup_iff.mpr hplaced.nodup, header := h.region.mem_iff.mpr (h.header ▸ hplaced.header),
           total := ?_, blocks := fun r hr => ?_, targets := fun c hc href => ?_,
           start := fun c hc href p hp v l hv hl t ht hmem => ?_ }
  · intro c hc
    obtain ⟨b, hb, e⟩ := List.mem_map.mp (hids ▸ List.mem_map_of_mem (f := Block.id) hc)
    rw [← e, h.total]
    exact hplaced.total b hb
  · obtain ⟨b, hb, rfl⟩ := hplaced.blocks r (h.region.mem_iff.mp hr)
    exact List.mem_map.mp (h.refs ▸ List.mem_map_of_mem (f := Block.ref) hb)
  · obtain ⟨b, hb, e, hphis, -⟩ := h.exists_header hc href
    exact hphis ▸ hplaced.targets b hb e
  · obtain ⟨b, hb, e, hphis, -⟩ := h.exists_header hc href
    rw [← hphis] at hp
    rcases h.mem_writesOf hplaced hmem with hnew | hold
    · refine hnew.ne_of_reserved hmax (hplaced.reserved_of_read hb (Block.mem_readTemps.mpr (.inl ⟨p, hp, ?_⟩))) rfl
      exact List.mem_filterMap.mpr ⟨v, List.mem_map_of_mem (f := (·.1)) (Phi.mem_of_incoming? hv), ht⟩
    · exact hplaced.start b hb e p hp v l hv (fun r hr => hl r (h.region.mem_iff.mpr hr)) t ht hold

end Reworked

/-- What advances a phi does so in the lines. -/
theorem Advances.linearize {u : Temp} (h : i.Advances f t u) (hre : Reworked f n i g n' i')
    (hplaced : i.region.Placed f n) (hmax : (n' : Int) ≤ u32Max) (hu : u.Reserved n) : i'.Advances g t u := by
  have hrest : ∀ c ∈ i'.region.blocksIn g, c.ref = i.region.header → ∃ b ∈ i.region.blocksIn f,
      b.phis = c.phis ∧ b.instrs = c.instrs := by
    intro c hc href
    obtain ⟨b, hb, e, hcode⟩ := hre.exists_header (hre.mem_of_blocksIn hc).1 (href.trans hre.header.symm)
    exact ⟨b, hplaced.mem_blocksIn hb (e ▸ hplaced.header), hcode⟩
  have hlined : ∀ c ∈ i'.region.blocksIn g, c.ref ≠ i.region.header → c.phis = [] ∧ ∃ b ∈ i.region.blocksIn f,
      ∀ x ∈ c.instrs, x.OfLine n n' i.width b := by
    intro c hc hne
    obtain ⟨hmem, hin⟩ := hre.mem_of_blocksIn hc
    obtain ⟨hphis, b, hb, e, hline, -⟩ := hre.lined c hmem hin hne
    exact ⟨hphis, b, hplaced.mem_blocksIn hb (e ▸ hin), hline⟩
  refine ⟨hre.pinned ▸ h.unpinned, fun c hc p hp => ?_, fun c hc x hx hw => ?_⟩
  · by_cases hne : c.ref = i.region.header
    · obtain ⟨b, hb, hphis, -⟩ := hrest c hc hne
      exact h.phis b hb p (hphis ▸ hp)
    · rw [(hlined c hc hne).1] at hp
      cases hp
  · by_cases hne : c.ref = i.region.header
    · obtain ⟨b, hb, -, hinstrs⟩ := hrest c hc hne
      exact h.instrs b hb x (hinstrs ▸ hx) hw
    · obtain ⟨-, b, hb, hline⟩ := hlined c hc hne
      rcases hline x hx with ⟨y, hy, mask, -, rfl⟩ | hadded
      · rw [Instr.write_under] at hw
        -- what advances a phi needs no mask
        obtain ⟨m, rfl⟩ := h.instrs b hb y hy hw
        refine ⟨m, ?_⟩
        unfold Instr.under
        cases mask <;> rfl
      · obtain ⟨_, hw', hnew | hphi⟩ := hadded.write
        · obtain rfl := Option.some.inj (hw'.symm.trans hw)
          exact absurd rfl (hnew.ne_of_reserved hmax hu)
        · obtain rfl := Option.some.inj (hw'.symm.trans hw)
          obtain ⟨p, hp, e⟩ := List.mem_map.mp hphi
          exact absurd e (h.phis b hb p hp)

/-- What a plan fixed of a region is fixed of the lines. -/
theorem Offered.linearize (h : Offered f n i) (hrun : i.linearize f n = .ok (g, i', n')) (hmax : (n' : Int) ≤ u32Max) :
    Offered g n' i' := by
  have hre := reworked_of_linearize h.toPlaced hrun
  have hold : ∀ t, t.Reserved n → t ∈ writesOf (i'.region.blocksIn g) → t ∈ writesOf (i.region.blocksIn f) :=
    fun t ht hw => (hre.mem_writesOf h.toPlaced hw).resolve_left fun hnew => hnew.ne_of_reserved hmax ht rfl
  refine { toPlaced := hre.placed h.toPlaced hmax, known := hre.pinned ▸ h.known, named := fun t s hpin => ?_,
           body := fun c hc hne t ht => ?_, steps := fun c hc href p hp s hpin hflat => ?_,
           tests := fun c hc href x hx t s hw hpin => ?_ }
  · exact (h.named t s (hre.pinned ▸ hpin)).mono hre.le
  · rw [hre.pinned]
    rcases hre.write h.toPlaced hc ht with hnew | ⟨b, hb, e, ht⟩
    · cases hpin : i.pinned.lookup t with
      | none => rfl
      | some s => exact absurd rfl (hnew.ne_of_reserved hmax (h.named t s hpin))
    · exact h.body b hb (e ▸ hre.header ▸ hne) t ht
  · obtain ⟨b, hb, e, hphis, -⟩ := hre.exists_header hc href
    rw [← hphis] at hp
    obtain ⟨m, hm, hfit, hsteps⟩ := h.steps b hb e p hp s (hre.pinned ▸ hpin) hflat
    refine ⟨m, hm, hfit, fun u hu hwritten => ?_⟩
    have hreserved := h.reserved_of_read hb (Block.mem_readTemps.mpr (.inl ⟨p, hp, hu⟩))
    exact (hsteps u hu (hold u hreserved hwritten)).linearize hre h.toPlaced hmax hreserved
  · obtain ⟨b, hb, e, -, hinstrs⟩ := hre.exists_header hc href
    rw [← hinstrs] at hx
    rw [hre.pinned] at hpin ⊢
    obtain ⟨hflat, hvector, hcall, hreads⟩ := h.tests b hb e x hx t s hw hpin
    refine ⟨hflat, hvector, hcall, fun u hu hwritten => hreads u hu (hold u ?_ hwritten)⟩
    exact h.reserved_of_read hb (Block.mem_readTemps.mpr (.inr (.inl ⟨x, hx, hu⟩)))

end LaneInfo

end LoopLanes
