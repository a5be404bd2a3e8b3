/-
The last block of a body that is lined up.

A body without a cycle is sorted so that every edge goes forward.  Each of its blocks goes on to a block of
the loop, so the last one can only go on to the header.

* `LoopForest.header_mem_succ_of_getLast?` — this holds for every loop of a function;
* `LaneInfo.linearize_ne_notLatch` — so no region of a loop is refused for its last block;
* `SplitPlan.linked_commit`, `Work.linked_prepared` — links agree where a plan was put in and marked;
* **`Func.sortsLoops_of_resolveLinks`** — sorts, planned loops and prepared loops of a function whose links
  were just rebuilt.
-/
import LoopLanes.Proofs.Loop.Innermost
import LoopLanes.Proofs.Vectorize.Reruns
import LoopLanes.Proofs.Vectorize.Unreached
import LoopLanes.Proofs.Widen.Linearized
import LoopLanes.Proofs.Widen.Sorting

namespace LoopLanes

variable {f g : Func} {l : Loop} {order : List BlockRef} {r : BlockRef} {v : Int}

/-! ### The last block -/

/-- The last block of a body that is sorted goes on to the header. -/
theorem LoopForest.header_mem_succ_of_getLast? (hf : f.Linked) (hbalanced : f.Balanced) (hl : l ∈ f.forest.loops)
    (hroot : l.isRoot = false) (horder : topoOrder? f ((l.body f f.forest).map Block.ref) = some order)
    (hlast : order.getLast? = some r) :
    ∃ b ∈ l.body f f.forest, b.ref = r ∧ ∃ p ∈ b.succ, p.number = l.header.number := by
  have hsub : ∀ b ∈ l.body f f.forest, b ∈ f.blocks := fun b hb => (Loop.mem_body.mp hb).1
  have hnodup : ((l.body f f.forest).map Block.id).Nodup :=
    hf.nodup.sublist ((List.filter_sublist.trans List.filter_sublist).map _)
  have hsorts := hf.sorts hbalanced hsub hnodup
  obtain ⟨hperm, hforward⟩ := hsorts.forward order horder
  have hacyclic := hsorts.isSome_iff.mp (Option.isSome_iff_exists.mpr ⟨order, horder⟩)
  obtain ⟨b, hb, rfl⟩ := List.mem_map.mp (hperm.subset (List.mem_of_getLast? hlast))
  obtain ⟨hmem, hin, hne⟩ := Loop.mem_body.mp hb
  have hbody : ∀ v, f.forest.contains l v = true → v ≠ l.header.number → v ∈ (l.body f f.forest).map Block.id := by
    intro v hv ne
    obtain ⟨c, hc, rfl, -⟩ := LoopForest.hasSucc_of_contains hf hroot hv
    exact List.mem_map_of_mem (Loop.mem_body.mpr ⟨hc, hv, ne⟩)
  obtain ⟨w, ⟨b', hb', e, p, hp, rfl⟩, hw⟩ := LoopForest.exists_edge_of_acyclic hf hl hroot hbody hacyclic hin hne
  obtain rfl := Func.eq_of_id_eq hf.nodup hb' hmem e
  refine ⟨b', hb, rfl, p, hp, ?_⟩
  by_contra hph
  -- a successor in the body would stand behind the last block
  obtain ⟨c, hc, rfl, -⟩ := hf.succ b' hmem p hp
  have hc : c ∈ l.body f f.forest := Loop.mem_body.mpr ⟨hc, hw, hph⟩
  have hlt := hforward b' hb c hc hp
  obtain ⟨pre, rfl⟩ := List.getLast?_eq_some_iff.mp hlast
  have hrefs : (pre ++ [b'.ref]).Nodup := by
    refine hperm.nodup_iff.mpr (.of_map (·.number) ?_)
    rw [List.map_map]
    exact hnodup
  have hnew : b'.ref ∉ pre := fun h => (List.nodup_append.mp hrefs).2.2 _ h _ (List.mem_singleton_self _) rfl
  rw [List.idxOf_append_of_notMem hnew] at hlt
  have hle := List.idxOf_lt_length_of_mem (hperm.mem_iff.mpr (List.mem_map_of_mem (f := Block.ref) hc))
  rw [List.length_append, List.length_singleton] at hle
  omega

theorem bind_eq_error {ε α β : Type} {x : Except ε α} {k : α → Except ε β} {e : ε} :
    (x >>= k) = .error e ↔ x = .error e ∨ ∃ a, x = .ok a ∧ k a = .error e := by
  cases x <;> simp [bind, Except.bind]

namespace LaneInfo

variable {i : LaneInfo} {b : Label} {n : TempCounter}

/-- A region is refused for its last block where that does not go on to the header. -/
theorem exists_last_of_notLatch (h : i.bodyPlan f = .error (.notLatch b)) : ∃ order c,
    topoOrder? f (i.region.blocks.filter (·.number != i.region.header.number)) = some order ∧
      order.getLast?.bind f.linked? = some c ∧ c.succ.any (·.number == i.region.header.number) = false := by
  unfold bodyPlan at h
  extract_lets header body succ at h
  split at h
  swap
  · cases h
  split at h
  swap
  · cases h
  rename_i order horder
  split at h
  swap
  · cases h
  rename_i c hc
  refine ⟨order, c, horder, hc, ?_⟩
  by_contra hback
  rw [Bool.not_eq_false] at hback
  rw [hback] at h
  cases h

/-- No region of a loop is refused for its last block. -/
theorem linearize_ne_notLatch (hf : f.Linked) (hbalanced : f.Balanced) (hl : l ∈ f.forest.loops)
    (hroot : l.isRoot = false) (hregion : i.region = .ofLoop f f.forest l) :
    i.linearize f n ≠ .error (.notLatch b) := by
  intro h
  unfold linearize at h
  rcases bind_eq_error.mp h with h | ⟨⟨plan, order⟩, -, h⟩
  · obtain ⟨order, c, horder, hlast, hback⟩ := exists_last_of_notLatch h
    have hheader : i.region.header = l.header := by rw [hregion]; rfl
    have hbody : i.region.blocks.filter (·.number != l.header.number) = (l.body f f.forest).map Block.ref := by
      rw [hregion]
      exact List.filter_map
    rw [hheader] at horder hback
    rw [hbody] at horder
    obtain ⟨r, hr, hc⟩ := Option.bind_eq_some_iff.mp hlast
    obtain ⟨d, hd, rfl, p, hp, hph⟩ := LoopForest.header_mem_succ_of_getLast? hf hbalanced hl hroot horder hr
    obtain rfl := Option.some.inj ((hf.linked? (Loop.mem_body.mp hd).1).symm.trans hc)
    rw [List.any_eq_false] at hback
    exact hback p hp (by simp [hph])
  · -- once there is a plan, only a label may be unknown
    dsimp only at h
    split at h
    split at h
    · cases h
    · cases h

/-- Nor is one that is lined up when its shapes are known. -/
theorem lineUp_ne_notLatch (hf : f.Linked) (hbalanced : f.Balanced) (hl : l ∈ f.forest.loops)
    (hroot : l.isRoot = false) (hregion : i.region = .ofLoop f f.forest l) :
    (Lowering.analyze f n i).lineUp ≠ .error (.notLatch b) := by
  intro h
  unfold Lowering.lineUp at h
  split at h
  · rcases bind_eq_error.mp h with h | ⟨_, -, h⟩
    · exact linearize_ne_notLatch hf hbalanced hl hroot ((region_analyze f n i).trans hregion) h
    · cases h
  · cases h

end LaneInfo

/-! ### Planned loops -/

/-- The last block of a planned loop without a cycle is its latch. -/
theorem SplitPlan.getLast?_eq_latch {width alignment : Nat} {rs : Recurrences} {n n' : TempCounter} {plan : SplitPlan}
    (hf : f.Linked) (hbalanced : f.Balanced) (hl : l ∈ f.forest.loops)
    (hplan : Gives (SplitPlan.make f f.forest l width alignment rs) n plan n')
    (hacyclic : (f.flow false).Acyclic ((l.body f f.forest).map Block.id)) :
    ∃ order latch, topoOrder? f ((l.body f f.forest).map Block.ref) = some order ∧ order.getLast? = some latch ∧
      l.singleLatch? f f.forest = some latch := by
  obtain ⟨a, ha⟩ := SplitPlan.anatomy_of_make hplan
  have hroot := Loop.isRoot_of_exits ha.exiting
  have hsub : ∀ b ∈ l.body f f.forest, b ∈ f.blocks := fun b hb => (Loop.mem_body.mp hb).1
  have hsorts := hf.sorts hbalanced hsub
    (hf.nodup.sublist ((List.filter_sublist.trans List.filter_sublist).map _))
  obtain ⟨order, horder⟩ := Option.isSome_iff_exists.mp (hsorts.isSome_iff.mpr hacyclic)
  -- the latch is in the body, so the order is not empty
  obtain ⟨⟨hprev, hin⟩, hsingle⟩ := Loop.singleLatch?_eq_some ha.latch
  have hheader := Func.linked?_mem ha.header
  have hheaderPrev : l.headerPrev f = a.header.prev := by rw [Loop.headerPrev, ha.header]; rfl
  rw [hheaderPrev] at hprev hsingle
  obtain ⟨c, hc, hcl, -⟩ := hf.prev a.header hheader.1 a.latch hprev
  have hcb : c ∈ l.body f f.forest := Loop.mem_body.mpr ⟨hc, by rw [← hcl] at hin; exact hin, by
    have := ha.latch_ne
    rw [← hcl] at this
    exact this⟩
  have hmem := (hsorts.forward order horder).1.mem_iff.mpr (List.mem_map_of_mem (f := Block.ref) hcb)
  obtain ⟨r, hr⟩ : ∃ r, order.getLast? = some r :=
    ⟨_, List.getLast?_eq_some_getLast (List.ne_nil_of_mem hmem)⟩
  refine ⟨order, r, horder, hr, ?_⟩
  -- what goes on to the header is the latch
  obtain ⟨b, hb, rfl, p, hp, hph⟩ := LoopForest.header_mem_succ_of_getLast? hf hbalanced hl hroot horder hr
  obtain ⟨hbmem, hbin, -⟩ := Loop.mem_body.mp hb
  have hback : b.ref ∈ a.header.prev := by
    obtain ⟨d, hd, rfl, hback⟩ := hf.succ b hbmem p hp
    rwa [Func.eq_of_id_eq hf.nodup hd hheader.1 (hph.trans (congrArg BlockRef.number hheader.2).symm)] at hback
  have hid := hsingle b.ref hback hbin
  rw [← hcl] at hid
  rw [ha.latch, ← hcl, Func.eq_of_id_eq hf.nodup hbmem hc hid]

/-! ### Prepared loops -/

namespace Func.SameOutline

theorem linked (hfg : f.SameOutline g) (hf : f.Linked) : g.Linked := by
  refine ⟨hfg.map_id ▸ hf.nodup, fun c hc r hr => ?_, fun c hc r hr => ?_⟩
  · obtain ⟨b, hb, href, -, hsucc, -⟩ := hfg.exists_block hc
    obtain ⟨d, hd, rfl, hback⟩ := hf.succ b hb r (hsucc ▸ hr)
    obtain ⟨e, he, heref, heprev, -⟩ := hfg.symm.exists_block hd
    exact ⟨e, he, heref, by rw [heprev, ← href]; exact hback⟩
  · obtain ⟨b, hb, href, hprev, -⟩ := hfg.exists_block hc
    obtain ⟨d, hd, rfl, hback⟩ := hf.prev b hb r (hprev ▸ hr)
    obtain ⟨e, he, heref, -, hesucc, -⟩ := hfg.symm.exists_block hd
    exact ⟨e, he, heref, by rw [hesucc, ← href]; exact hback⟩

theorem balanced (hfg : f.SameOutline g) (hf : f.Balanced) : g.Balanced := by
  intro b hb c hc
  obtain ⟨b', hb', href, -, hsucc, -⟩ := hfg.exists_block hb
  obtain ⟨c', hc', href', hprev, -⟩ := hfg.exists_block hc
  rw [← hsucc, ← hprev, ← href, ← href']
  exact hf b' hb' c' hc'

theorem follows (hfg : f.SameOutline g) {u w : Int} (h : f.Follows u w) : g.Follows u w := by
  obtain ⟨b, hb, rfl, r, hr, rfl⟩ := h
  obtain ⟨c, hc, href, -, hsucc, -⟩ := hfg.symm.exists_block hb
  exact ⟨c, hc, congrArg BlockRef.number href, r, hsucc ▸ hr, rfl⟩

theorem walk (hfg : f.SameOutline g) {u w : Int} {vs : List Int} (h : f.Walk u vs w) : g.Walk u vs w := by
  induction h with
  | @stay b hb =>
    obtain ⟨c, hc, href, -⟩ := hfg.symm.exists_block hb
    have hid : c.id = b.id := congrArg BlockRef.number href
    rw [← hid]
    exact .stay hc
  | go e _ ih => exact .go (hfg.follows e) ih

theorem entry_id (hfg : f.SameOutline g) : g.entry.id = f.entry.id := by
  have hhead : ∀ f : Func, f.entry.id = (f.blocks.map Block.id).headD 0 := by
    intro f
    unfold entry
    cases f.blocks <;> rfl
  rw [hhead, hhead, hfg.map_id]

theorem headsLoop (hfg : f.SameOutline g) (h : f.HeadsLoop v) : g.HeadsLoop v := by
  obtain ⟨p, hp, ⟨vs, hvs⟩, hevery⟩ := h
  refine ⟨p, hfg.follows hp, ⟨vs, hfg.entry_id ▸ hfg.walk hvs⟩, fun ws hws => hevery ws ?_⟩
  exact hfg.symm.entry_id ▸ hfg.symm.walk hws

end Func.SameOutline

/-- A loop is found by its header. -/
theorem LoopForest.exists_withHeader?_iff (hf : f.Linked) :
    (∃ m, f.forest.withHeader? v = some m) ↔ ∃ m ∈ f.forest.loops, m.isRoot = false ∧ m.header.number = v := by
  obtain ⟨_, hsound⟩ := LoopSearch.walk_sound hf
  have hs : (searchOf f (DomTree.ofFunc f false)).Ranged := hsound.toRanged
  constructor
  · rintro ⟨m, hm⟩
    obtain ⟨howner, hheader⟩ := Option.filter_eq_some_iff.mp hm
    obtain ⟨hmem, hroot, -⟩ := (owner?_eq_some_iff hs).mp howner
    exact ⟨m, hmem, hroot, beq_iff_eq.mp hheader⟩
  · rintro ⟨m, hm, hroot, rfl⟩
    obtain ⟨h1, -, hh, -⟩ := found_of_mem hm hroot
    have howner := (owner?_eq_some_iff hs).mpr ⟨hm, hroot, (hsound.header _ _ h1 hh).2⟩
    exact ⟨m, Option.filter_eq_some_iff.mpr ⟨howner, beq_self_eq_true _⟩⟩

/-- Links agree where a plan was put in. -/
theorem SplitPlan.linked_commit {width alignment : Nat} {rs : Recurrences} {n n' : TempCounter} {plan : SplitPlan}
    {prepared : PreparedLoop} (hf : f.Linked) (hbalanced : f.Balanced) (htotal : ∀ b ∈ f.blocks, b.id ≤ f.total)
    (h : Gives (SplitPlan.make f f.forest l width alignment rs) n plan n') (hcommit : plan.commit f = .ok (prepared, g)) :
    g.Linked ∧ g.Balanced := by
  cases hk : plan.kind with
  | inPlace latch updates cond =>
    rw [commit, hk] at hcommit
    obtain ⟨-, rfl⟩ := Prod.mk.inj (Except.ok.inj hcommit)
    have hadvance := Func.SameOutline.modify f latch (φ := advance updates id) fun _ => rfl
    have hsame := hadvance.trans (.modify _ plan.header (φ := redirect updates id latch.label) fun _ => rfl)
    exact ⟨hsame.linked hf, hsame.balanced hbalanced⟩
  | split s =>
    obtain ⟨-, a, updates, k, -, -, hparts⟩ := found_of_make h hk
    have hnodup : ((l.blocks f f.forest).map Block.id).Nodup := hf.nodup.sublist (List.filter_sublist.map _)
    obtain ⟨x, hx⟩ := staged_of_splitParts hnodup hparts
    obtain ⟨hids, hbetween⟩ := hx.ids_spec hnodup
    have hplaced : ((placed plan.header s f).blocks.map Block.id).Nodup :=
      nodup_placed hf.nodup htotal (hx.map_id ▸ hids) (hx.map_id ▸ fun i hi => (hbetween i hi).1)
    rw [commit_split hk] at hcommit
    split at hcommit
    · cases hcommit
    · rename_i g' hresolve
      obtain ⟨-, rfl⟩ := Prod.mk.inj (Except.ok.inj hcommit)
      have hg : g' = (placed plan.header s f).resolveLinks.1 := by rw [hresolve]
      rw [hg]
      exact ⟨Func.linked_resolveLinks hplaced, Func.balanced_resolveLinks _⟩

/-- Once the loops that come of a plan are marked, links agree and the main loop is found. -/
theorem Work.linked_prepared {c : Func} {header prepared : Int} (hc : c.Linked) (hbalanced : c.Balanced)
    (h : markPrepared c header prepared = .ok g) :
    g.Linked ∧ g.Balanced ∧ ∃ m, g.forest.withHeader? prepared = some m ∧ m ∈ g.forest.loops ∧ m.isRoot = false := by
  have hsame := sameOutline_markPrepared h
  have hg := hsame.linked hc
  refine ⟨hg, hsame.balanced hbalanced, ?_⟩
  -- it was found before, and marks do not change the loops
  have hfound : ∃ m, c.forest.withHeader? prepared = some m := by
    unfold markPrepared at h
    extract_lets src done t at h
    split at h
    swap
    · cases h
    split at h
    swap
    · cases h
    exact ⟨_, ‹t.withHeader? prepared = some _›⟩
  have hheads := (Func.exists_loop_iff_headsLoop hc).mp ((LoopForest.exists_withHeader?_iff hc).mp hfound)
  have hloop := (Func.exists_loop_iff_headsLoop hg).mpr (hsame.headsLoop hheads)
  obtain ⟨m, hm⟩ := (LoopForest.exists_withHeader?_iff hg).mpr hloop
  obtain ⟨howner, -⟩ := Option.filter_eq_some_iff.mp hm
  obtain ⟨hmem, hroot, -⟩ := ((LoopForest.nested_ofFunc hg).owner prepared m).mp howner
  exact ⟨m, hm, hmem, hroot⟩

namespace Func

/-- How blocks of a function are sorted, and what follows for its loops.  The last part asks that new blocks
get new numbers. -/
structure SortsLoops (f : Func) : Prop where
  sorts : ∀ bs : List Block, bs.Nodup → (∀ b ∈ bs, b ∈ f.blocks) → f.Sorts bs
  planned : ∀ l ∈ f.forest.loops, ∀ (width alignment : Nat) (rs : Recurrences) (n n' : TempCounter) (plan : SplitPlan),
    Gives (SplitPlan.make f f.forest l width alignment rs) n plan n' →
    (f.flow false).Acyclic ((l.body f f.forest).map Block.id) →
      ∃ order latch, topoOrder? f ((l.body f f.forest).map Block.ref) = some order ∧ order.getLast? = some latch ∧
        l.singleLatch? f f.forest = some latch
  prepared : (∀ b ∈ f.blocks, b.id ≤ f.total) →
    ∀ l ∈ f.forest.loops, ∀ (width alignment : Nat) (rs : Recurrences) (n n' : TempCounter) (plan : SplitPlan),
    Gives (SplitPlan.make f f.forest l width alignment rs) n plan n' →
    ∀ (x : PreparedLoop) (c g : Func), plan.commit f = .ok (x, c) →
    Work.markPrepared c l.header.number x.header = .ok g →
    ∀ (shapes : List (Temp × LaneShape)) (temps : TempCounter) (b : Label),
      (Lowering.analyze g temps (Work.handedOn g ((g.forest.withHeader? x.header).getD l) plan.width shapes
        x.uniforms)).lineUp ≠ .error (.notLatch b)

/-- Wherever the links of a function were just rebuilt, its blocks are sorted as far as they have no cycle, the
body of a planned loop ends with the latch, and no prepared loop is refused for its last block. -/
theorem sortsLoops_of_resolveLinks (h : (f.blocks.map Block.id).Nodup) : f.resolveLinks.1.SortsLoops where
  sorts bs hnodup hsub := by
    have hf := linked_resolveLinks h
    refine hf.sorts (balanced_resolveLinks f) hsub ?_
    exact List.Nodup.map_on (fun b hb c hc e => eq_of_id_eq hf.nodup (hsub b hb) (hsub c hc) e) hnodup
  planned l hl width alignment rs n n' plan hplan :=
    SplitPlan.getLast?_eq_latch (linked_resolveLinks h) (balanced_resolveLinks f) hl hplan
  prepared htotal l hl width alignment rs n n' plan hplan x c g hcommit hmark shapes temps b := by
    obtain ⟨hc, hcb⟩ :=
      SplitPlan.linked_commit (linked_resolveLinks h) (balanced_resolveLinks f) htotal hplan hcommit
    obtain ⟨hg, hgb, m, hm, hmem, hroot⟩ := Work.linked_prepared hc hcb hmark
    rw [hm, Option.getD_some]
    exact LaneInfo.lineUp_ne_notLatch hg hgb hmem hroot (Work.region_handedOn g m plan.width shapes x.uniforms)

/-- The two sides of a choice come together in the latch, which is the last block of the body, and once the loop
is split the main loop is not refused for its last block. -/
theorem sortsLoops_of_choosing : (choosing.blocks.map Block.id).Nodup ∧ choosing.resolveLinks.1.SortsLoops ∧
    ∃ l ∈ choosing.resolveLinks.1.forest.loops, ∃ order latch plan x c g,
      topoOrder? choosing.resolveLinks.1
        ((l.body choosing.resolveLinks.1 choosing.resolveLinks.1.forest).map Block.ref) = some order ∧
      order.map (·.number) = [2, 3, 4, 5] ∧ order.getLast? = some latch ∧
      l.singleLatch? choosing.resolveLinks.1 choosing.resolveLinks.1.forest = some latch ∧
      SplitPlan.commit plan choosing.resolveLinks.1 = .ok (x, c) ∧
      Work.markPrepared c l.header.number x.header = .ok g ∧ plan.isSplit = true ∧
      ∀ (shapes : List (Temp × LaneShape)) (temps : TempCounter) (b : Label),
        (Lowering.analyze g temps (Work.handedOn g ((g.forest.withHeader? x.header).getD l) plan.width shapes
          x.uniforms)).lineUp ≠ .error (.notLatch b) := by
  have h : (choosing.blocks.map Block.id).Nodup := by decide
  have hsorts := sortsLoops_of_resolveLinks h
  have htotal : ∀ b ∈ choosing.resolveLinks.1.blocks, b.id ≤ choosing.resolveLinks.1.total := by decide +kernel
  obtain ⟨l, hl, hplan, horder⟩ : ∃ l ∈ choosing.resolveLinks.1.forest.loops,
      ((SplitPlan.make choosing.resolveLinks.1 choosing.resolveLinks.1.forest l 4 1
        (.ofLoop choosing.resolveLinks.1 choosing.resolveLinks.1.forest l)).run.run 0).1.toOption.any
          (fun plan => plan.isSplit && (plan.commit choosing.resolveLinks.1).toOption.any fun r =>
            (Work.markPrepared r.2 l.header.number r.1.header).toOption.isSome) = true ∧
      (topoOrder? choosing.resolveLinks.1
        ((l.body choosing.resolveLinks.1 choosing.resolveLinks.1.forest).map Block.ref)).any
          (fun order => order.map (·.number) == [2, 3, 4, 5]) = true := by decide +kernel
  obtain ⟨plan, hplan, hcarried⟩ := exists_of_any hplan
  have hgives : Gives (SplitPlan.make choosing.resolveLinks.1 choosing.resolveLinks.1.forest l 4 1
    (.ofLoop choosing.resolveLinks.1 choosing.resolveLinks.1.forest l)) 0 plan _ := Prod.ext hplan rfl
  obtain ⟨hsplit, hcarried⟩ := (Bool.and_eq_true _ _).mp hcarried
  obtain ⟨⟨x, c⟩, hcommit, hmarked⟩ := exists_of_any hcarried
  obtain ⟨g, hmark⟩ := Option.isSome_iff_exists.mp hmarked
  have hmark := toOption_eq_some.mp hmark
  obtain ⟨order, hsome, hnumbers⟩ := (Option.any_eq_true _ _).mp horder
  have hbody := hsorts.sorts (l.body choosing.resolveLinks.1 choosing.resolveLinks.1.forest)
    (.of_map Block.id ((linked_resolveLinks h).nodup.sublist
      ((List.filter_sublist.trans List.filter_sublist).map _))) fun b hb => (Loop.mem_body.mp hb).1
  have hacyclic := hbody.isSome_iff.mp (Option.isSome_iff_exists.mpr ⟨order, hsome⟩)
  obtain ⟨order', latch, horder', hlast, hlatch⟩ := hsorts.planned l hl 4 1 _ 0 _ plan hgives hacyclic
  obtain rfl := Option.some.inj (hsome.symm.trans horder')
  exact ⟨h, hsorts, l, hl, order, latch, plan, x, c, g, hsome, eq_of_beq hnumbers, hlast, hlatch, hcommit, hmark,
    hsplit, hsorts.prepared htotal l hl 4 1 _ 0 _ plan hgives x c g hcommit hmark⟩

end Func

end LoopLanes
