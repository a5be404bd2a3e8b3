/-
What a plan hands on to widening.

A loop is a region in its place (`Region.placed_ofLoop`).  A plan fixes the shapes of what the loop counts with:
header phis that step by constants, and tests of them (`Pins`).  From these shapes alone, inference makes the
region ready for being widened (`Offered.ready`).
-/
import LoopLanes.Proofs.Loop.Enclosed
import LoopLanes.Proofs.Shape.Stepping
import LoopLanes.Proofs.Widen.Tidy

namespace LoopLanes

namespace Region

variable {f : Func} {l : Loop} {n : TempCounter} {b : Block}

theorem blocksIn_ofLoop (hf : f.Linked) : (Region.ofLoop f f.forest l).blocksIn f = l.blocks f f.forest := by
  rw [blocksIn, ofLoop, List.filterMap_map]
  refine (List.filterMap_congr fun b hb => ?_).trans List.filterMap_some
  exact hf.linked? (Loop.mem_blocks.mp hb).1

theorem contains_ofLoop (hb : b ∈ f.blocks) :
    (Region.ofLoop f f.forest l).contains b.id = f.forest.contains l b.id := by
  rw [Bool.eq_iff_iff, contains, List.any_eq_true]
  constructor
  · rintro ⟨_, hmem, e⟩
    obtain ⟨d, hd, rfl⟩ := List.mem_map.mp hmem
    exact beq_iff_eq.mp e ▸ (Loop.mem_blocks.mp hd).2
  · exact fun hin => ⟨b.ref, List.mem_map_of_mem (Loop.mem_blocks.mpr ⟨hb, hin⟩), by simp [Block.id]⟩

/-- The region of a loop is in its place. -/
theorem placed_ofLoop (h : l.Enclosed f) (hext : f.Extensible n) : (Region.ofLoop f f.forest l).Placed f n := by
  have hf := h.linked.toLinked
  refine { distinct := hf.nodup, links := Func.linkedByJumps_of_wellLinked h.linked, total := hext.total,
           reserved := hext.reserved, nodup := ?_, blocks := ?_, header := ?_,
           targets := fun b hb _ => Func.phi_targets_nodup h.verified hb, start := ?_ }
  · refine .of_map (·.number) ?_
    rw [ofLoop, List.map_map]
    exact hf.nodup.sublist (List.filter_sublist.map _)
  · simp only [ofLoop, List.forall_mem_map]
    exact fun b hb => ⟨b, (Loop.mem_blocks.mp hb).1, rfl⟩
  · -- the header follows its latch, so it is a block
    obtain ⟨p, hp, -⟩ := LoopForest.exists_latch hf h.mem h.notRoot
    cases hheader : f.linked? l.header with
    | none => simp [LoopSearch.prevs, hheader] at hp
    | some header =>
      obtain ⟨hmem, href⟩ := Func.linked?_mem hheader
      refine List.mem_map.mpr ⟨header, Loop.mem_blocks.mpr ⟨hmem, ?_⟩, href⟩
      rw [Block.id, href]
      exact LoopForest.contains_header hf h.mem
  · rw [blocksIn_ofLoop hf]
    intro b hb href p hp v k hv hk t ht
    obtain rfl : v = .temp t := by
      cases v <;> cases ht
      rfl
    obtain ⟨-, hlabels⟩ := Func.labels_of_phi h.linked hb hp
    obtain ⟨r, hr, rfl⟩ := List.mem_map.mp ((hlabels k).mp (List.mem_map_of_mem (f := (·.2)) (Phi.mem_of_incoming? hv)))
    refine h.start_not_defined hext.locals hb href hp hr ?_ hv
    by_contra hin
    obtain ⟨c, hc, rfl, -⟩ := h.linked.prev b hb r hr
    exact hk c.ref (List.mem_map_of_mem (Loop.mem_blocks.mpr ⟨hc, by simpa [Block.id] using hin⟩)) rfl

end Region

namespace LaneInfo

variable {i : LaneInfo} {f : Func} {n : TempCounter} {b : Block} {x : Instr} {t u : Temp} {p : Phi} {s : LaneShape}

/-- Whatever defines a temporary in the region adds a constant to another one. -/
structure Advances (i : LaneInfo) (f : Func) (t u : Temp) : Prop where
  unpinned : i.pinned.lookup u = none
  phis : ∀ b ∈ i.region.blocksIn f, ∀ p ∈ b.phis, p.target ≠ u
  instrs : ∀ b ∈ i.region.blocksIn f, ∀ x ∈ b.instrs, x.write = some u →
    ∃ c, x = .arith u .add .i32 (.temp t) (.int c)

/-- A phi of the header steps by constants: what flows in from the region advances it. -/
def Steps (i : LaneInfo) (f : Func) (p : Phi) (s : LaneShape) : Prop :=
  ∃ m, s = .ofStride m ∧ fitI32? m = some m ∧
    ∀ u ∈ (Instr.phi p).readTemps, u ∈ writesOf (i.region.blocksIn f) → i.Advances f p.target u

/-- Shapes are fixed of header phis and of tests of them. -/
structure Pins (f : Func) (n : TempCounter) (i : LaneInfo) : Prop where
  known : ∀ t, i.pinned.lookup t ≠ some .unknown
  named : ∀ t s, i.pinned.lookup t = some s → t.Reserved n
  body : ∀ b ∈ i.region.blocksIn f, b.ref ≠ i.region.header → ∀ t ∈ b.writes, i.pinned.lookup t = none
  steps : ∀ b ∈ f.blocks, b.ref = i.region.header → ∀ p ∈ b.phis, ∀ s, i.pinned.lookup p.target = some s →
    s.isVector = false → i.Steps f p s
  tests : ∀ b ∈ f.blocks, b.ref = i.region.header → ∀ x ∈ b.instrs, ∀ t s, x.write = some t →
    i.pinned.lookup t = some s → s.isVector = false ∧ x.isVector = false ∧ x.isCall = false ∧
      ∀ u ∈ x.readTemps, u ∈ writesOf (i.region.blocksIn f) →
        ∃ s', i.pinned.lookup u = some s' ∧ s'.isVector = false

/-- A region in its function, with the shapes that a plan fixes. -/
structure Offered (f : Func) (n : TempCounter) (i : LaneInfo) : Prop extends Region.Placed i.region f n, Pins f n i

theorem isVector_ofStride (m : Int) : (LaneShape.ofStride m).isVector = false := by
  unfold LaneShape.ofStride
  split <;> rfl

/-- What advances a phi has its stride. -/
theorem Advances.shapeOf_infer {m : Int} (h : i.Advances f t u) (hm : fitI32? m = some m)
    (hpin : i.pinned.lookup t = some (.ofStride m)) (ht : t ∈ writesOf (i.region.blocksIn f))
    (hu : u ∈ writesOf (i.region.blocksIn f)) : (i.infer f).1.shapeOf u = .ofStride m := by
  refine LaneInfo.shapeOf_infer ⟨h.unpinned, ?_, ?_, h.phis, fun b hb x hx hw k hk => ?_⟩
  · unfold LaneShape.ofStride
    split <;> simp
  · obtain ⟨b, hb, hu⟩ := List.mem_flatMap.mp hu
    rcases List.mem_append.mp hu with hu | hu
    · obtain ⟨p, hp, e⟩ := List.mem_map.mp hu
      exact absurd e (h.phis b hb p hp)
    · obtain ⟨x, hx, hw⟩ := List.mem_filterMap.mp hu
      exact ⟨b, hb, x, hx, hw⟩
  · obtain ⟨c, rfl⟩ := h.instrs b hb x hx hw
    refine transfer_add hm (shapeOf_of_pinned ?_ ?_)
    · rw [hk.defs]
      exact ht
    · rw [hk.pinned]
      exact hpin

/-- Inference makes what is handed on ready. -/
theorem Offered.ready (h : Offered f n i) : Ready f n (i.infer f).1 := by
  obtain ⟨hstage, hsettled, -⟩ := infer_spec f i
  have hregion : (i.infer f).1.region = i.region := hstage.region
  have hpinned : (i.infer f).1.pinned = i.pinned := hstage.pinned
  have hdefs : (i.infer f).1.defs = writesOf (i.region.blocksIn f) := hstage.defs
  have hshape : ∀ t ∈ writesOf (i.region.blocksIn f), ∀ s, i.pinned.lookup t = some s →
      (i.infer f).1.shapeOf t = s := fun t ht s hpin => shapeOf_of_pinned (hdefs ▸ ht) (hpinned ▸ hpin)
  have houtside : ∀ t ∉ writesOf (i.region.blocksIn f), ((i.infer f).1.shapeOf t).isVector = false := by
    intro t ht
    rw [shapeOf_of_outside (hdefs ▸ ht)]
    rfl
  -- shapes are fixed in the header alone
  have hheader : ∀ b ∈ i.region.blocksIn f, ∀ t ∈ b.writes, ∀ s, i.pinned.lookup t = some s →
      b ∈ f.blocks ∧ b.ref = i.region.header := by
    intro b hb t ht s hpin
    refine ⟨(Region.Placed.mem_of_blocksIn hb).1, ?_⟩
    by_contra hne
    rw [h.body b hb hne t ht] at hpin
    cases hpin
  refine { toPlaced := hregion ▸ h.toPlaced, defs := hregion ▸ hdefs, settled := hregion ▸ hsettled,
           known := hpinned ▸ h.known, pinned := ?_, phis := ?_ }
  · rw [hregion, hpinned]
    intro b hb x hx t s hw hpin
    obtain ⟨hmem, href⟩ := hheader b hb t (List.mem_append_right _ (List.mem_filterMap.mpr ⟨x, hx, hw⟩)) s hpin
    obtain ⟨hflat, hvector, hcall, hreads⟩ := h.tests b hmem href x hx t s hw hpin
    refine ⟨hflat, hvector, hcall, fun u hu => ?_⟩
    by_cases hdef : u ∈ writesOf (i.region.blocksIn f)
    · obtain ⟨s', hpin', hflat'⟩ := hreads u hu hdef
      rwa [hshape u hdef s' hpin']
    · exact houtside u hdef
  · rw [hregion, hpinned]
    intro b hb p hp s hpin hflat u hu
    obtain ⟨hmem, href⟩ := hheader b hb p.target (List.mem_append_left _ (List.mem_map_of_mem hp)) s hpin
    obtain ⟨m, rfl, hm, hsteps⟩ := h.steps b hmem href p hp s hpin hflat
    by_cases hdef : u ∈ writesOf (i.region.blocksIn f)
    · rw [(hsteps u hu hdef).shapeOf_infer hm hpin (mem_writesOf_of_phi hb hp) hdef]
      exact isVector_ofStride m
    · exact houtside u hdef

end LaneInfo

end LoopLanes
