/-
Widening and what is cut off.

Lining up a body gives its blocks new jumps, and folding partial results puts a block behind a loop.  Where
a set of blocks is cut off from the rest of a function and has no block of the region, it is cut off from
what is left as well.

* `mem_topoOrder?` — nothing is lined up that does not belong to the body;
* `insulated_linearize`, `insulated_foldPartials` — the two edits of jumps;
* `insulated_lower` — all of widening.
-/
import LoopLanes.Proofs.Loop.CutOff
import LoopLanes.Proofs.Widen.Lines
import LoopLanes.Proofs.Widen.Order
import LoopLanes.Proofs.Widen.Rounds

namespace LoopLanes

variable {f g : Func} {D : Int → Prop} {i j : LaneInfo} {n n' : TempCounter} {r : BlockRef}

/-! ### What is lined up -/

namespace TopoState

variable {P : Int → Prop} {s : TopoState}

/-- A sort knows nothing but blocks whose numbers are as `P` says. -/
structure Within (P : Int → Prop) (s : TopoState) : Prop where
  pending : ∀ v, (s.pending.lookup v).isSome = true → P v
  queue : ∀ r ∈ s.queue, P r.number
  order : ∀ r ∈ s.order, P r.number

theorem Within.arrive (hs : s.Within P) (r : BlockRef) : (s.arrive r).Within P := by
  unfold TopoState.arrive
  split
  · rename_i d hd
    have hr : P r.number := hs.pending r.number (by rw [hd]; rfl)
    refine ⟨fun v hv => ?_, fun q hq => ?_, hs.order⟩
    · rw [lookup_setEntry] at hv
      split at hv
      · rename_i e
        exact e ▸ hr
      · exact hs.pending v hv
    · dsimp only at hq
      split at hq
      · rcases List.mem_append.mp hq with hq | hq
        · exact hs.queue q hq
        · exact List.mem_singleton.mp hq ▸ hr
      · exact hs.queue q hq
  · exact hs

theorem Within.foldl_arrive : ∀ {rs : List BlockRef} {s : TopoState}, s.Within P →
    (rs.foldl TopoState.arrive s).Within P := by
  intro rs
  induction rs with
  | nil => exact fun hs => hs
  | cons r rs ih => exact fun hs => ih (hs.arrive r)

theorem Within.run (f : Func) : ∀ {fuel : Nat} {s : TopoState}, s.Within P → (TopoState.run f fuel s).Within P := by
  intro fuel
  induction fuel with
  | zero => exact fun hs => hs
  | succ fuel ih =>
    intro s hs
    unfold TopoState.run
    split
    · exact hs
    · rename_i b queue hqueue
      have hb := List.forall_mem_cons.mp (hqueue ▸ hs.queue)
      have hleft : TopoState.Within P { s with queue := queue } := ⟨hs.pending, hb.2, hs.order⟩
      have hcounted : TopoState.Within P ((((f.linked? b).map (·.succ)).getD []).foldl TopoState.arrive
        { s with queue := queue }) := hleft.foldl_arrive
      refine ih ⟨hcounted.pending, hcounted.queue, fun r hr => ?_⟩
      rcases List.mem_append.mp hr with hr | hr
      · exact hcounted.order r hr
      · exact List.mem_singleton.mp hr ▸ hb.1

end TopoState

/-- What is sorted belongs to the body. -/
theorem mem_topoOrder? {body order : List BlockRef} (h : topoOrder? f body = some order) (hr : r ∈ order) :
    ∃ q ∈ body, q.number = r.number := by
  unfold topoOrder? at h
  extract_lets ids inDegree pending start s at h
  split at h
  · obtain rfl := Option.some.inj h
    have hstart : TopoState.Within (fun v => ∃ q ∈ body, q.number = v) ⟨pending, start, []⟩ := by
      refine ⟨fun v hv => ?_, fun q hq => ⟨q, (List.mem_filter.mp hq).1, rfl⟩, by simp⟩
      by_contra hno
      rw [show pending.lookup v = none from lookup_foldl_of_notMem _ _ fun hv => hno (List.mem_map.mp hv)] at hv
      cases hv
    exact (hstart.run f).order r hr
  · cases h

/-- Lining up blocks changes their jumps, each to the next block. -/
theorem BodyPlan.cutOff_blocks (p : BodyPlan) : ∀ {order : List BlockRef} {f : Func} {s : MaskState}, f.CutOff D →
    (∀ r ∈ order, ¬ D r.number) → ((p.blocks order f).run s).1.CutOff D := by
  intro order
  induction order with
  | nil => exact fun hf _ => hf
  | cons r rs ih =>
    intro f s hf horder
    obtain ⟨hr, hrs⟩ := List.forall_mem_cons.mp horder
    unfold BodyPlan.blocks
    split
    · exact ih hf hrs
    · rename_i b hb
      obtain ⟨hmem, rfl⟩ := Func.linked?_mem hb
      obtain ⟨_, _, _, s', -, -, hblock⟩ := p.exists_stages b s
      rw [Masking.run_bind (hblock rs.head?)]
      refine ih (hf.mapBlocks (fun c _ => ?_) fun c _ w hw => ?_) hrs
      · split
        · rename_i e
          exact congrArg BlockRef.number (beq_iff_eq.mp e).symm
        · rfl
      · split at hw
        · rename_i e
          have hc : c.id = b.id := congrArg BlockRef.number (beq_iff_eq.mp e)
          cases hnext : rs.head? with
          | none =>
            rw [hnext] at hw
            exact .inr (hc ▸ hf.jump b hmem w hw)
          | some q =>
            rw [hnext] at hw
            obtain rfl : w = q.number := Label.ofBlock_injective (List.mem_singleton.mp hw)
            exact .inr (iff_of_false (hc ▸ hr) (hrs q (List.mem_of_mem_head? hnext)))
        · exact .inl hw

namespace LaneInfo

/-- The plan for a body sorts the blocks of its region, the header aside. -/
theorem topoOrder?_of_bodyPlan {plan : BodyPlan} {order : List BlockRef} (h : i.bodyPlan f = .ok (plan, order)) :
    topoOrder? f (i.region.blocks.filter (·.number != i.region.header.number)) = some order ∧ plan.width = i.width := by
  unfold bodyPlan at h
  extract_lets header body succ at h
  split at h
  swap
  · cases h
  split at h
  swap
  · cases h
  rename_i order' horder
  split at h
  swap
  · cases h
  split at h
  · cases h
  · obtain ⟨rfl, rfl⟩ := Prod.mk.inj (pure_eq_ok.mp h)
    exact ⟨horder, rfl⟩

/-- Only blocks of the region are lined up, the header aside. -/
theorem mem_order_of_bodyPlan {plan : BodyPlan} {order : List BlockRef} (h : i.bodyPlan f = .ok (plan, order))
    (hr : r ∈ order) : ∃ q ∈ i.region.blocks, q.number = r.number := by
  obtain ⟨q, hq, e⟩ := mem_topoOrder? (topoOrder?_of_bodyPlan h).1 hr
  exact ⟨q, (List.mem_filter.mp hq).1, e⟩

/-- A body is lined up beside what is cut off. -/
theorem insulated_linearize (hf : f.Insulated D) (hregion : ∀ r ∈ i.region.blocks, ¬ D r.number)
    (h : i.linearize f n = .ok (g, j, n')) : g.Insulated D ∧ j.region.header = i.region.header := by
  unfold linearize at h
  obtain ⟨⟨plan, order⟩, hplan, h⟩ := bind_eq_ok.mp h
  have hblocks := plan.cutOff_blocks (s := ⟨n, [], []⟩) hf.toCutOff fun r hr => by
    obtain ⟨q, hq, e⟩ := mem_order_of_bodyPlan hplan hr
    exact e ▸ hregion q hq
  rcases hrun : (plan.blocks order f).run ⟨n, [], []⟩ with ⟨lined, s⟩
  rw [hrun] at hblocks
  simp only [hrun] at h
  split at h
  · cases h
  · rename_i resolved hresolve
    obtain ⟨rfl, e⟩ := Prod.mk.inj (pure_eq_ok.mp h)
    obtain ⟨rfl, -⟩ := Prod.mk.inj e
    have := hblocks.resolveLinks (by rw [hresolve])
    rw [hresolve] at this
    exact ⟨this, rfl⟩

/-! ### What is widened -/

/-- Widening instructions leaves jumps alone. -/
theorem sameOutline_widenBlock (i : LaneInfo) (f : Func) (n : TempCounter) (r : BlockRef) :
    f.SameOutline (i.widenBlock f n r).1 := by
  unfold widenBlock
  split
  · exact .refl f
  · exact .modify f r fun _ => rfl

theorem sameOutline_widenEntry (i : LaneInfo) (f : Func) (n : TempCounter) (e : Value × Label) :
    f.SameOutline (i.widenEntry f n e).2.1 := by
  unfold widenEntry
  split
  · split
    · exact .modify f _ fun _ => rfl
    · exact .refl f
  · exact .refl f

theorem sameOutline_widenEntries (i : LaneInfo) : ∀ (es : List (Value × Label)) (f : Func) (n : TempCounter),
    f.SameOutline (i.widenEntries es f n).2.1 := by
  intro es
  induction es with
  | nil => exact fun f _ => .refl f
  | cons e es ih => exact fun f n => (i.sameOutline_widenEntry f n e).trans (ih _ _)

theorem sameOutline_widenPhis (i : LaneInfo) : ∀ (ps : List Phi) (f : Func) (n : TempCounter),
    f.SameOutline (i.widenPhis ps f n).2.1 := by
  intro ps
  induction ps with
  | nil => exact fun f _ => .refl f
  | cons p ps ih =>
    intro f n
    unfold widenPhis
    dsimp only
    split
    · exact (i.sameOutline_widenEntries p.incoming f n).trans (ih _ _)
    · exact ih f n

theorem sameOutline_widenBlockPhis (i : LaneInfo) (f : Func) (n : TempCounter) (r : BlockRef) :
    f.SameOutline (i.widenBlockPhis f n r).1 := by
  unfold widenBlockPhis
  split
  · exact .refl f
  · split
    · exact .refl f
    · exact (i.sameOutline_widenPhis _ f n).trans (.modify _ r fun _ => rfl)

/-- Edits one after the other, with the names that they take. -/
theorem sameOutline_foldl {step : Func → TempCounter → BlockRef → Func × TempCounter}
    (hstep : ∀ (f : Func) (n : TempCounter) (r : BlockRef), f.SameOutline (step f n r).1) : ∀ (rs : List BlockRef) (f : Func) (n : TempCounter),
      f.SameOutline (rs.foldl (fun (f, n) r => step f n r) (f, n)).1 := by
  intro rs
  induction rs with
  | nil => exact fun f _ => .refl f
  | cons r rs ih => exact fun f n => (hstep f n r).trans (ih _ _)

end LaneInfo

/-- Seeding lanes leaves jumps alone. -/
theorem FoldSite.sameOutline_add {site : FoldSite} {s s' : FoldState} {t : Temp} {kind : RedKind}
    (h : site.add s t kind = .ok s') : s.func.SameOutline s'.func := by
  unfold FoldSite.add at h
  extract_lets ty l old at h
  split at h
  swap
  · cases h
  split at h
  swap
  · cases h
  obtain rfl := pure_eq_ok.mp h
  refine Func.SameOutline.trans (.modify _ site.entering ?_) (.modify _ site.header ?_)
  · exact fun _ => rfl
  · exact fun _ => rfl

theorem FoldSite.sameOutline_foldlM {site : FoldSite} : ∀ {phis : List (Temp × RedKind)} {s s' : FoldState},
    phis.foldlM (fun s (t, k) => site.add s t k) s = .ok s' → s.func.SameOutline s'.func := by
  intro phis
  induction phis with
  | nil =>
    intro s s' h
    obtain rfl := pure_eq_ok.mp h
    exact .refl _
  | cons p phis ih =>
    intro s s' h
    obtain ⟨s₁, hadd, h⟩ := bind_eq_ok.mp h
    exact (sameOutline_add hadd).trans (ih h)

/-- Replacing values leaves jumps alone. -/
theorem LaneInfo.outline_substBlock (σ : Temp → Option Value) (b : Block) : (substBlock σ b).outline = b.outline := by
  have htargets : (substBlock σ b).targets = b.targets.map id :=
    Block.targets_of_jump (fun x => by rw [Instr.targets_subst, List.map_id]) rfl
  rw [Block.outline, htargets, List.map_id]
  rfl

namespace LaneInfo

/-- Partial results are folded beside what is cut off. -/
theorem insulated_foldPartials {phis : List (Temp × RedKind)} {outside : List BlockRef} (hf : f.Insulated D)
    (hheader : ¬ D i.region.header.number) (h : i.foldPartials f n phis outside = .ok (g, n')) : g.Insulated D := by
  unfold foldPartials at h
  simp only [Func.newBlockId] at h
  split at h
  swap
  · cases h
  split at h
  swap
  · cases h
  rename_i exit hexit
  obtain ⟨s, hs, h⟩ := bind_eq_ok.mp h
  have hseeded := FoldSite.sameOutline_foldlM hs
  -- the way out of the header leads to the new block, and on to where it led before
  have hexit : ¬ D exit.number := by
    have hmem := List.mem_of_find?_eq_some hexit
    cases hb : f.linked? i.region.header with
    | none => simp [hb] at hmem
    | some b =>
      obtain ⟨hb', href⟩ := Func.linked?_mem hb
      have hsucc : exit ∈ b.succ := by simpa [hb] using hmem
      have hjump := hf.jump b hb' exit.number ((hf.links.succ b hb').symm ▸ List.mem_map_of_mem hsucc)
      rwa [← hjump, Block.id, href]
  have hfold : ¬ D (f.total + 1) := hf.not_fresh (Int.lt_succ f.total)
  have hcut := hf.newBlockId.of_sameOutline hseeded
  have hrenamed : (s.func.modify i.region.header
      (·.renameTargets (Func.renameOne exit.label (Label.ofBlock (f.total + 1))))).CutOff D := by
    refine hcut.mapBlocks (fun b _ => ?_) fun b _ w hw => ?_
    · split
      · rfl
      · rfl
    · split at hw
      · rename_i href
        rw [Block.targets_renameTargets] at hw
        obtain ⟨k, hk, e⟩ := List.mem_map.mp hw
        unfold Func.renameOne at e
        split at e
        · have hb : ¬ D b.id := by rwa [Block.id, beq_iff_eq.mp href]
          exact .inr (iff_of_false hb (Label.ofBlock_injective e ▸ hfold))
        · exact .inl (e ▸ hk)
      · exact .inl hw
  have hmoved := (Func.SameOutline.modify (s.func.modify i.region.header
      (·.renameTargets (Func.renameOne exit.label (Label.ofBlock (f.total + 1))))) exit
      (φ := (·.renameIncoming (Func.renameOne i.region.header.label (Label.ofBlock (f.total + 1)))))
      fun _ => rfl).trans (.foldl (fun g r => .modify g r (outline_substBlock fun t => s.results.reverse.lookup t))
        outside _)
  have hids : (s.func.modify i.region.header
      (·.renameTargets (Func.renameOne exit.label (Label.ofBlock (f.total + 1))))).blocks.map Block.id =
        f.blocks.map Block.id := by
    rw [← hseeded.map_id]
    exact Func.map_id_of_refs (Func.map_ref_modify fun _ => rfl)
  have hnew : f.total + 1 ∉ f.blocks.map Block.id := by
    intro hmem
    obtain ⟨b, hb, e⟩ := List.mem_map.mp hmem
    exact absurd (hf.total b hb) (by omega)
  have hcut := hrenamed.of_sameOutline hmoved
  rw [← hids, ← hmoved.map_id] at hnew
  have htotal := hmoved.total.trans hseeded.total
  generalize List.foldl _ _ outside = moved at h hcut hnew htotal
  have hplaced := fun place => hcut.insertIdx (b := { Block.ofId (f.total + 1) with
    instrs := s.folds, jump := some (.jump exit.label) }) place hnew (Int.le_of_eq htotal.symm) hfold fun w hw => by
      rwa [Label.ofBlock_injective (List.mem_singleton.mp hw)]
  split at h
  · cases h
  rename_i resolved hresolve
  obtain ⟨rfl, -⟩ := Prod.mk.inj (pure_eq_ok.mp h)
  have := (hplaced _).resolveLinks (by rw [hresolve])
  rwa [hresolve] at this

/-- Widening instructions and phis leaves the outline alone. -/
theorem sameOutline_widened {p q : Func × TempCounter}
    (hp : i.region.blocks.foldl (fun (f, n) r => i.widenBlock f n r) (f, n) = p)
    (hq : i.region.blocks.foldl (fun (f, n) r => i.widenBlockPhis f n r) (p.1, p.2) = q) : f.SameOutline q.1 := by
  have hblocks := sameOutline_foldl i.sameOutline_widenBlock i.region.blocks f n
  have hphis := sameOutline_foldl i.sameOutline_widenBlockPhis i.region.blocks p.1 p.2
  rw [hp] at hblocks
  rw [hq] at hphis
  exact hblocks.trans hphis

/-- A region is widened beside what is cut off. -/
theorem insulated_widen (hf : f.Insulated D) (hheader : ¬ D i.region.header.number)
    (h : i.widen f n = .ok (g, n')) : g.Insulated D := by
  obtain ⟨p, q, hp, hq, -, hend⟩ := widen_eq_ok h
  have hwidened := hf.of_sameOutline (sameOutline_widened hp hq)
  rcases hend with ⟨-, rfl⟩ | hfold
  · exact hwidened
  · exact insulated_foldPartials hwidened hheader hfold

/-- Finding shapes leaves the region alone. -/
theorem region_analyze (f : Func) (n : TempCounter) (i : LaneInfo) :
    (Lowering.analyze f n i).info.region = i.region :=
  (infer_spec f i).1.region

/-- A region that is about to be widened is as it was when its shapes were found, or it was lined up. -/
theorem lineUp_eq_ok {l : Lowering} (h : (Lowering.analyze f n i).lineUp = .ok l) :
    l = .analyze f n i ∨ (Lowering.analyze f n i).isDivergent = true ∧
      ∃ f' i' k, (Lowering.analyze f n i).info.linearize f n = .ok (f', i', k) ∧ l = .analyze f' k i' := by
  unfold Lowering.lineUp at h
  split at h
  · rename_i hdivergent
    obtain ⟨⟨f', i', k⟩, hlinearize, h⟩ := bind_eq_ok.mp h
    exact .inr ⟨hdivergent, f', i', k, hlinearize, (pure_eq_ok.mp h).symm⟩
  · exact .inl (pure_eq_ok.mp h).symm

/-- A prepared loop becomes vector code beside what is cut off. -/
theorem insulated_lower {l : Lowering} (hf : f.Insulated D) (hregion : ∀ r ∈ i.region.blocks, ¬ D r.number)
    (hheader : ¬ D i.region.header.number) (hline : (Lowering.analyze f n i).lineUp = .ok l)
    (hwiden : l.widen = .ok (g, n')) : g.Insulated D := by
  obtain ⟨-, hwiden⟩ := widen_of_lowering hwiden
  rcases lineUp_eq_ok hline with rfl | ⟨-, lined, j, k, hlinearize, rfl⟩
  · exact insulated_widen hf (region_analyze f n i ▸ hheader) hwiden
  · obtain ⟨hlined, hsame⟩ := insulated_linearize hf (region_analyze f n i ▸ hregion) hlinearize
    refine insulated_widen hlined ?_ hwiden
    rw [region_analyze, hsame, region_analyze]
    exact hheader

end LaneInfo

end LoopLanes
